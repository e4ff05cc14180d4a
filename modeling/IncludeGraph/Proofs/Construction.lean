import IncludeGraph.FileGraph
import IncludeGraph.Proofs.Digraph.Reachability
import IncludeGraph.Proofs.FileTable
import IncludeGraph.Proofs.Sequences

/-!
# The graph of a list of units

What a list of units says about names, without nodes: which names are known, which
name includes which, and what follows along chains of includes.  `Represents` says
that a graph holds exactly this.  A list of units either has such a graph or fails at
its first include of an unknown name.
-/

namespace IncludeGraph

/-! ## Names -/

/-- Some unit has the name. -/
def Known (units : List SourceUnit) (name : String) : Prop :=
  ∃ unit ∈ units, unit.name = name

/-- Some unit named `source` includes `target`. -/
def Includes (units : List SourceUnit) (source target : String) : Prop :=
  ∃ unit ∈ units, unit.name = source ∧ target ∈ unit.includes

instance (units : List SourceUnit) (name : String) : Decidable (Known units name) :=
  inferInstanceAs (Decidable (∃ unit ∈ units, unit.name = name))

instance (units : List SourceUnit) (source target : String) :
    Decidable (Includes units source target) :=
  inferInstanceAs (Decidable (∃ unit ∈ units, unit.name = source ∧ target ∈ unit.includes))

/-- A chain of zero or more includes leads from one name to another. -/
abbrev DependsOn (units : List SourceUnit) : String → String → Prop :=
  Relation.ReflTransGen (Includes units)

/-- Each of two names depends on the other. -/
def CycleMates (units : List SourceUnit) (name other : String) : Prop :=
  DependsOn units name other ∧ DependsOn units other name

/-- `target` is the first include, in the order of the units and then of their
includes, that is the name of no unit; `source` is the name of the unit with it. -/
def FirstUnknown (units : List SourceUnit) (source target : String) : Prop :=
  ∃ earlier unit later before after,
    units = earlier ++ unit :: later ∧ unit.includes = before ++ target :: after ∧
      unit.name = source ∧ ¬ Known units target ∧
      (∀ other ∈ earlier, ∀ name ∈ other.includes, Known units name) ∧
      ∀ name ∈ before, Known units name

variable {units : List SourceUnit}

theorem mem_includePairs {source target : String} :
    (source, target) ∈ includePairs units ↔ Includes units source target := by
  simp only [includePairs, List.mem_flatMap, List.mem_map, Prod.mk.injEq, Includes]
  constructor
  · rintro ⟨unit, hunit, _, htarget, rfl, rfl⟩
    exact ⟨unit, hunit, rfl, htarget⟩
  · rintro ⟨unit, hunit, rfl, htarget⟩
    exact ⟨unit, hunit, target, htarget, rfl, rfl⟩

theorem Includes.known_source {source target : String} (h : Includes units source target) :
    Known units source := by
  obtain ⟨unit, hunit, hname, _⟩ := h
  exact ⟨unit, hunit, hname⟩

/-- Cycle-mates of a file are files: another one has an include of its own on the way back. -/
theorem CycleMates.known {name other : String} (h : CycleMates units name other)
    (hname : Known units name) : Known units other := by
  rcases h.2.cases_head with rfl | ⟨next, hincludes, _⟩
  · exact hname
  · exact hincludes.known_source

/-- A place in the pairs of all units is a place in the includes of one of them. -/
theorem includePairs_eq_append {before after : List (String × String)} {source target : String}
    (hsplit : includePairs units = before ++ (source, target) :: after) :
    ∃ earlier unit later ahead behind, units = earlier ++ unit :: later ∧
      unit.includes = ahead ++ target :: behind ∧ unit.name = source ∧
      before = includePairs earlier ++ ahead.map fun name => (source, name) := by
  induction units generalizing before with
  | nil => simp [includePairs] at hsplit
  | cons unit units ih =>
      have hcons : includePairs (unit :: units) =
          (unit.includes.map fun name => (unit.name, name)) ++ includePairs units := rfl
      rw [hcons] at hsplit
      rcases append_eq_append_cons hsplit with ⟨rest, hhere⟩ | ⟨rest, rfl, hlater⟩
      · obtain ⟨ahead, others, hincludes, rfl, hothers⟩ := List.map_eq_append_iff.mp hhere
        obtain ⟨name, behind, rfl, hpair, _⟩ := List.map_eq_cons_iff.mp hothers
        obtain ⟨rfl, rfl⟩ := Prod.mk.inj hpair
        exact ⟨[], unit, units, ahead, behind, rfl, hincludes, rfl, rfl⟩
      · obtain ⟨earlier, found, later, ahead, behind, rfl, hincludes, hname, rfl⟩ := ih hlater
        refine ⟨unit :: earlier, found, later, ahead, behind, rfl, hincludes, hname, ?_⟩
        rw [← List.append_assoc]
        rfl

/-- The first pair with an unknown target is the first unknown include. -/
theorem firstUnknown_of_includePairs {before after : List (String × String)}
    {source target : String} (hsplit : includePairs units = before ++ (source, target) :: after)
    (hbefore : ∀ pair ∈ before, Known units pair.2) (htarget : ¬ Known units target) :
    FirstUnknown units source target := by
  obtain ⟨earlier, unit, later, ahead, behind, hunits, hincludes, hname, rfl⟩ :=
    includePairs_eq_append hsplit
  refine ⟨earlier, unit, later, ahead, behind, hunits, hincludes, hname, htarget, ?_, ?_⟩
  · intro other hother name hincluded
    refine hbefore (other.name, name) (List.mem_append_left _ (mem_includePairs.mpr ?_))
    exact ⟨other, hother, rfl, hincluded⟩
  · intro name hincluded
    exact hbefore (source, name) (List.mem_append_right _ (List.mem_map_of_mem hincluded))

theorem FirstUnknown.not_all_known {source target : String}
    (h : FirstUnknown units source target) :
    ¬ ∀ unit ∈ units, ∀ name ∈ unit.includes, Known units name := by
  obtain ⟨earlier, unit, later, before, after, hunits, hincludes, _, hunknown, _⟩ := h
  intro hall
  exact hunknown (hall unit (by simp [hunits]) target (by simp [hincludes]))

theorem FirstUnknown.unique {source target source' target' : String}
    (h : FirstUnknown units source target) (h' : FirstUnknown units source' target') :
    source = source' ∧ target = target' := by
  obtain ⟨earlier, unit, later, before, after, hunits, hincludes, rfl, hunknown, hearlier,
    hbefore⟩ := h
  obtain ⟨earlier', unit', later', before', after', hunits', hincludes', rfl, hunknown',
    hearlier', hbefore'⟩ := h'
  have hunit : unit = unit' := by
    refine first_unique (fun unit => ∃ name ∈ unit.includes, ¬ Known units name)
      (hunits.symm.trans hunits') ⟨target, by simp [hincludes], hunknown⟩
      ⟨target', by simp [hincludes'], hunknown'⟩ ?_ ?_
    · rintro other hother ⟨name, hname, hbad⟩
      exact hbad (hearlier other hother name hname)
    · rintro other hother ⟨name, hname, hbad⟩
      exact hbad (hearlier' other hother name hname)
  subst hunit
  refine ⟨rfl, first_unique (fun name => ¬ Known units name) (hincludes.symm.trans hincludes')
    hunknown hunknown' ?_ ?_⟩
  · exact fun name hname => not_not.mpr (hbefore name hname)
  · exact fun name hname => not_not.mpr (hbefore' name hname)

/-- Where an outcome is a value if all names are known, and else the error that reports one
unknown name, it shows whether all names are known and which one is reported. -/
theorem outcome_exact {α : Type} {outcome : Except AnalysisError α} {all : Prop}
    {reported : String → String → Prop}
    (houtcome : (∃ value, outcome = .ok value) ∧ all ∨ ∃ source target, reported source target ∧
      outcome = .error (.unknownDependency source target))
    (hnot : ∀ source target, reported source target → ¬ all)
    (hunique : ∀ source target source' target', reported source target →
      reported source' target' → source = source' ∧ target = target') :
    ((∃ value, outcome = .ok value) ↔ all) ∧
      (∀ source target, outcome = .error (.unknownDependency source target) ↔
        reported source target) ∧
      ∀ violation, outcome ≠ .error (.invariantViolation violation) := by
  rcases houtcome with ⟨⟨value, rfl⟩, hall⟩ | ⟨source, target, hreported, rfl⟩
  · refine ⟨iff_of_true ⟨value, rfl⟩ hall, fun source target => ?_, fun _ => nofun⟩
    exact iff_of_false nofun fun hreported => hnot source target hreported hall
  · refine ⟨iff_of_false nofun (hnot source target hreported), fun source' target' => ?_,
      fun _ => nofun⟩
    constructor
    · rintro ⟨⟩
      exact hreported
    · intro hother
      obtain ⟨rfl, rfl⟩ := hunique _ _ _ _ hreported hother
      rfl

namespace FileGraph

open IncludeGraph.Digraph

/-! ## Numbering names -/

open FileTable in
/-- Numbering further nodes adds an entry for each of them. -/
theorem holds_foldl_insert {n : Nat} {names : Vector String n} {index : FileTable (Fin n)}
    {entries : List (String × Fin n)} (h : Holds index entries) (nodes : List (Fin n))
    (hnodup : (entries.map Prod.fst ++ nodes.map names.get).Nodup) :
    Holds (nodes.foldl (fun index i => index.insert (names.get i) i) index)
      (entries ++ nodes.map fun i => (names.get i, i)) := by
  induction nodes generalizing index entries with
  | nil => simpa using h
  | cons i nodes ih =>
      have hnew : names.get i ∉ index := by
        rw [h.mem_iff]
        intro hmem
        exact (List.nodup_append.mp hnodup).2.2 _ hmem _ List.mem_cons_self rfl
      have hrest := ih (h.insert hnew i) (by simpa using hnodup)
      simpa using hrest

open FileTable in
theorem holds_indexNames {n : Nat} {names : Vector String n} (hnodup : names.toList.Nodup) :
    Holds (indexNames names) ((List.finRange n).map fun i => (names.get i, i)) := by
  rw [vector_toList_eq_map_get] at hnodup
  exact holds_foldl_insert holds_empty (List.finRange n) hnodup

theorem getElem?_indexNames {n : Nat} {names : Vector String n} (hnodup : names.toList.Nodup)
    (name : String) (i : Fin n) : (indexNames names)[name]? = some i ↔ names.get i = name := by
  rw [(holds_indexNames hnodup).get?_eq]
  simp

/-! ## Resolving includes -/

section Resolve

variable {n : Nat} {names : Vector String n} {index : Std.HashMap String (Fin n)}

def endNames (names : Vector String n) (e : Fin n × Fin n) : String × String :=
  (names.get e.1, names.get e.2)

theorem resolve_eq_ok_iff (hindex : ∀ name i, index[name]? = some i ↔ names.get i = name)
    {pair : String × String} {e : Fin n × Fin n} :
    resolve index pair = .ok e ↔ endNames names e = pair := by
  rw [endNames, ← Prod.mk.eta (p := pair), Prod.mk.injEq, ← hindex, ← hindex, resolve]
  cases index[pair.1]? with
  | none => simp
  | some source =>
      cases index[pair.2]? with
      | none => simp
      | some target => simp [Prod.ext_iff]

theorem map_endNames_of_resolve
    (hindex : ∀ name i, index[name]? = some i ↔ names.get i = name)
    {pairs : List (String × String)} {edges : List (Fin n × Fin n)}
    (hall : List.Forall₂ (fun pair e => resolve index pair = .ok e) pairs edges) :
    edges.map (endNames names) = pairs := by
  induction hall with
  | nil => rfl
  | cons hresolve _ ih => rw [List.map_cons, ih, (resolve_eq_ok_iff hindex).mp hresolve]

/-- An include can be resolved unless one of its names has no node. -/
theorem resolve_eq_error {pair : String × String} {e : AnalysisError}
    (herror : resolve index pair = .error e) :
    e = .unknownDependency pair.1 pair.2 ∧ (index[pair.1]? = none ∨ index[pair.2]? = none) := by
  rw [resolve] at herror
  cases hsource : index[pair.1]? with
  | none =>
      simp only [hsource] at herror
      exact ⟨(Except.error.inj herror).symm, .inl rfl⟩
  | some source =>
      cases htarget : index[pair.2]? with
      | none =>
          simp only [hsource, htarget] at herror
          exact ⟨(Except.error.inj herror).symm, .inr rfl⟩
      | some target =>
          simp only [hsource, htarget] at herror
          cases herror

end Resolve

/-! ## The graph -/

/-- The graph has one node for every known name and an edge for every include. -/
structure Represents (g : FileGraph) (units : List SourceUnit) : Prop where
  nodup : g.names.toList.Nodup
  known_iff : ∀ name, Known units name ↔ ∃ i, g.names.get i = name
  node?_eq : ∀ name i, g.node? name = some i ↔ g.names.get i = name
  adj_iff : ∀ i j, g.links.Adj i j ↔ Includes units (g.names.get i) (g.names.get j)
  /-- Every include names a unit. -/
  known : ∀ source target, Includes units source target → Known units target

/-- The names of the units in the order of the nodes. -/
def nodeNames (units : List SourceUnit) :
    Vector String (firstOccurrences (units.map (·.name))).toArray.size :=
  (firstOccurrences (units.map (·.name))).toArray.toVector

def ofResolved {n : Nat} (names : Vector String n) (edges : List (Fin n × Fin n)) : FileGraph :=
  let links := Digraph.ofEdges (firstOccurrences edges)
  { size := n, names, links, index := indexNames names,
    fingerprint := fingerprintOf names.toList (edgeNames names links) }

theorem build_eq_bind (units : List SourceUnit) :
    build units = (includePairs units).mapM (resolve (indexNames (nodeNames units))) >>=
      fun edges => .ok (ofResolved (nodeNames units) edges) :=
  rfl

theorem nodup_nodeNames (units : List SourceUnit) : (nodeNames units).toList.Nodup :=
  nodup_firstOccurrences _

theorem known_iff_get_nodeNames (name : String) :
    Known units name ↔ ∃ i, (nodeNames units).get i = name := by
  rw [← mem_toList_iff_get]
  change _ ↔ name ∈ firstOccurrences (units.map (·.name))
  simp [Known]

theorem endNames_injective {n : Nat} {names : Vector String n} (hnodup : names.toList.Nodup) :
    Function.Injective (endNames names) := by
  intro e f heq
  obtain ⟨hsource, htarget⟩ := Prod.mk.inj heq
  exact Prod.ext (get_injective hnodup hsource) (get_injective hnodup htarget)

theorem adj_ofEdges_iff {n : Nat} {names : Vector String n} (hnodup : names.toList.Nodup)
    {edges : List (Fin n × Fin n)} {i j : Fin n} :
    (Digraph.ofEdges (firstOccurrences edges)).Adj i j ↔
      (names.get i, names.get j) ∈ edges.map (endNames names) := by
  rw [adj_ofEdges, mem_firstOccurrences]
  exact (List.mem_map_of_injective (endNames_injective hnodup) (a := (i, j))).symm

theorem represents_ofResolved {edges : List (Fin _ × Fin _)}
    (hpairs : edges.map (endNames (nodeNames units)) = includePairs units) :
    (ofResolved (nodeNames units) edges).Represents units where
  nodup := nodup_nodeNames units
  known_iff := known_iff_get_nodeNames
  node?_eq := getElem?_indexNames (nodup_nodeNames units)
  adj_iff i j := by
    refine (adj_ofEdges_iff (nodup_nodeNames units) (i := i) (j := j)).trans ?_
    rw [hpairs]
    exact mem_includePairs
  known source target hincludes := by
    rw [← mem_includePairs, ← hpairs] at hincludes
    obtain ⟨e, _, hnames⟩ := List.mem_map.mp hincludes
    exact (known_iff_get_nodeNames target).mpr ⟨e.2, (Prod.mk.inj hnames).2⟩

/-- A list of units has a graph, or its first unknown include is an error. -/
theorem build_ok_or_unknown (units : List SourceUnit) :
    (∃ g, build units = .ok g ∧ g.Represents units) ∨
      ∃ source target, FirstUnknown units source target ∧
        build units = .error (.unknownDependency source target) := by
  have hindex := getElem?_indexNames (nodup_nodeNames units)
  rw [build_eq_bind]
  rcases mapM_ok_or_error (resolve (indexNames (nodeNames units))) (includePairs units) with
    ⟨edges, hok, hall⟩ | ⟨before, pair, after, e, hsplit, hbefore, hpair, herror⟩
  · refine .inl ⟨ofResolved (nodeNames units) edges, by rw [hok, ok_bind], ?_⟩
    exact represents_ofResolved (map_endNames_of_resolve hindex hall)
  · obtain ⟨rfl, hnone⟩ := resolve_eq_error hpair
    have hmem : (pair.1, pair.2) ∈ includePairs units := by simp [hsplit]
    have hsource : Known units pair.1 := (mem_includePairs.mp hmem).known_source
    refine .inr ⟨pair.1, pair.2, firstUnknown_of_includePairs hsplit ?_ ?_, ?_⟩
    · intro other hother
      obtain ⟨e, hresolve⟩ := hbefore other hother
      rw [resolve_eq_ok_iff hindex] at hresolve
      exact (known_iff_get_nodeNames other.2).mpr ⟨e.2, (Prod.ext_iff.mp hresolve).2⟩
    · intro htarget
      obtain ⟨i, hi⟩ := (known_iff_get_nodeNames _).mp hsource
      obtain ⟨j, hj⟩ := (known_iff_get_nodeNames _).mp htarget
      rw [(hindex _ i).mpr hi, (hindex _ j).mpr hj] at hnone
      simp at hnone
    · rw [herror, error_bind]

theorem represents_of_build {g : FileGraph} (hbuild : build units = .ok g) :
    g.Represents units := by
  rcases build_ok_or_unknown units with ⟨other, hother, hrepresents⟩ | ⟨_, _, _, herror⟩
  · rw [hbuild] at hother
    cases hother
    exact hrepresents
  · rw [hbuild] at herror
    cases herror

theorem exists_build_of_known (units : List SourceUnit)
    (hall : ∀ unit ∈ units, ∀ name ∈ unit.includes, Known units name) :
    ∃ g, build units = .ok g := by
  rcases build_ok_or_unknown units with ⟨g, hbuild, _⟩ | ⟨_, _, hunknown, _⟩
  · exact ⟨g, hbuild⟩
  · exact absurd hall hunknown.not_all_known

/-- A built graph has a node for each name and an edge for each include, both resolved. -/
theorem exists_resolved_of_build {g : FileGraph} (hbuild : build units = .ok g) :
    ∃ edges, edges.map (endNames (nodeNames units)) = includePairs units ∧
      g = ofResolved (nodeNames units) edges := by
  rw [build_eq_bind, bind_eq_ok_iff] at hbuild
  obtain ⟨edges, hedges, hgraph⟩ := hbuild
  refine ⟨edges, ?_, (Except.ok.inj hgraph).symm⟩
  rcases mapM_ok_or_error (resolve (indexNames (nodeNames units))) (includePairs units) with
    ⟨results, hok, hall⟩ | ⟨_, _, _, _, _, _, _, herror⟩
  · obtain rfl : edges = results := Except.ok.inj (hedges.symm.trans hok)
    exact map_endNames_of_resolve (getElem?_indexNames (nodup_nodeNames units)) hall
  · rw [hedges] at herror
    cases herror

/-- A built graph has no parallel edges. -/
theorem nodup_edges_of_build {g : FileGraph} (hbuild : build units = .ok g) :
    g.links.edges.toList.Nodup := by
  obtain ⟨edges, _, rfl⟩ := exists_resolved_of_build hbuild
  exact nodup_firstOccurrences edges

theorem fingerprint_of_build {g : FileGraph} (hbuild : build units = .ok g) :
    g.fingerprint = fingerprintOf g.names.toList (edgeNames g.names g.links) := by
  obtain ⟨edges, _, rfl⟩ := exists_resolved_of_build hbuild
  rfl

/-- The nodes follow the first occurrences of their names. -/
theorem names_of_build {g : FileGraph} (hbuild : build units = .ok g) :
    g.names.toList = firstOccurrences (units.map (·.name)) := by
  obtain ⟨edges, _, rfl⟩ := exists_resolved_of_build hbuild
  rfl

/-- The edges follow the first occurrences of their includes. -/
theorem edgeNames_of_build {g : FileGraph} (hbuild : build units = .ok g) :
    edgeNames g.names g.links = firstOccurrences (includePairs units) := by
  obtain ⟨edges, hpairs, rfl⟩ := exists_resolved_of_build hbuild
  rw [← hpairs, firstOccurrences_map (endNames_injective (nodup_nodeNames units))]
  rfl

/-! ## Paths and chains of includes -/

namespace Represents

variable {g : FileGraph} {i j : Fin g.size}

theorem injective (h : g.Represents units) : Function.Injective g.names.get :=
  get_injective h.nodup

theorem mem_names_iff (h : g.Represents units) {name : String} :
    name ∈ g.names.toList ↔ Known units name := by
  rw [mem_toList_iff_get, h.known_iff]

theorem mem_edgeNames (h : g.Represents units) {source target : String} :
    (source, target) ∈ edgeNames g.names g.links ↔ Includes units source target := by
  constructor
  · intro hmem
    obtain ⟨e, hadj, heq⟩ := List.mem_map.mp hmem
    obtain ⟨rfl, rfl⟩ := Prod.mk.inj heq
    exact (h.adj_iff e.1 e.2).mp (Array.mem_toList_iff.mp hadj)
  · intro hincludes
    obtain ⟨i, rfl⟩ := (h.known_iff source).mp hincludes.known_source
    obtain ⟨j, rfl⟩ := (h.known_iff target).mp (h.known _ target hincludes)
    have hadj := (h.adj_iff i j).mpr hincludes
    exact List.mem_map.mpr ⟨(i, j), Array.mem_toList_iff.mpr hadj, rfl⟩

/-- A node reaches another exactly if its file depends on the other. -/
theorem reaches_iff (h : g.Represents units) :
    g.links.Reaches i j ↔ DependsOn units (g.names.get i) (g.names.get j) := by
  rw [reaches_iff_reflTransGen]
  constructor
  · intro hpath
    exact hpath.lift g.names.get fun _ _ hadj => (h.adj_iff _ _).mp hadj
  · intro hchain
    generalize hsource : g.names.get i = source at hchain
    generalize htarget : g.names.get j = target at hchain
    induction hchain using Relation.ReflTransGen.head_induction_on generalizing i with
    | refl =>
        rw [h.injective (hsource.trans htarget.symm)]
    | @head source next hincludes _ ih =>
        obtain ⟨k, hk⟩ := (h.known_iff next).mp (h.known source next hincludes)
        refine .head ((h.adj_iff i k).mpr ?_) (ih hk)
        rw [hsource, hk]
        exact hincludes

theorem mutuallyReachable_iff (h : g.Represents units) :
    g.links.MutuallyReachable i j ↔ CycleMates units (g.names.get i) (g.names.get j) :=
  and_congr h.reaches_iff h.reaches_iff

end Represents

end FileGraph

end IncludeGraph
