import IncludeGraph.Plan
import IncludeGraph.Proofs.Digraph.Reachability
import IncludeGraph.Proofs.FileTable

/-!
# The verdict on a plan

A plan can be checked against any graph and any condensed graph.  Nodes of the graph may share
a name or stand outside its index, edges may be parallel, and the condensed graph may be that
of other files.  `FirstBroken` says which rule the verdict names: the first one that the plan
breaks, at the first place where it is broken.

The check of an include looks both of its ends up without asking whether they have a stage.
The guarded check `verify?` asks, and gives up where one has none.  It never does: the rules
that come first leave no file of the graph without a stage.
-/

namespace IncludeGraph.Plan

open FileTable

variable {p : Plan} {g : FileGraph} {c : Condensed} {table : FileTable Nat}

/-! ## The stages of files -/

/-- Stage `k` of the plan lists the file. -/
def Places (p : Plan) (k : Nat) (file : String) : Prop :=
  ∃ stage, p.stages[k]? = some stage ∧ file ∈ stage

theorem exists_places_iff {file : String} :
    (∃ k, p.Places k file) ↔ file ∈ p.stages.flatten := by
  rw [List.mem_flatten]
  constructor
  · rintro ⟨k, stage, hstage, hfile⟩
    exact ⟨stage, List.mem_of_getElem? hstage, hfile⟩
  · rintro ⟨stage, hstage, hfile⟩
    obtain ⟨k, hk⟩ := List.mem_iff_getElem?.mp hstage
    exact ⟨k, stage, hk, hfile⟩

/-- The groups from which the stages of the files are entered. -/
def stageGroups (p : Plan) : List (Nat × List String) :=
  p.stages.zipIdx.map Prod.swap

theorem flatMap_stageGroups (p : Plan) : p.stageGroups.flatMap Prod.snd = p.stages.flatten := by
  rw [stageGroups, List.flatMap_map, List.flatMap_def]
  congr 1
  exact List.zipIdx_map_fst 0 p.stages

theorem stageMap_eq_ok_iff : (∃ table, p.stageMap = .ok table) ↔ p.stages.flatten.Nodup := by
  rw [← flatMap_stageGroups]
  exact ofGroups_eq_ok_iff .repeatedFile p.stageGroups

theorem get?_stageMap {table : FileTable Nat} (hok : p.stageMap = .ok table) (file : String)
    (k : Nat) : table[file]? = some k ↔ p.Places k file := by
  rw [(holds_of_ofGroups hok).get?_eq, mem_entriesOf, Places]
  constructor
  · rintro ⟨⟨i, stage⟩, hgroup, rfl, hfile⟩
    obtain ⟨⟨stage, i⟩, hmem, heq⟩ := List.mem_map.mp hgroup
    cases heq
    exact ⟨stage, List.mem_zipIdx_iff_getElem?.mp hmem, hfile⟩
  · rintro ⟨stage, hstage, hfile⟩
    refine ⟨(k, stage), ?_, rfl, hfile⟩
    exact List.mem_map.mpr ⟨(stage, k), List.mem_zipIdx_iff_getElem?.mpr hstage, rfl⟩

theorem mem_stageMap_iff {table : FileTable Nat} (hok : p.stageMap = .ok table) (file : String) :
    file ∈ table ↔ file ∈ p.stages.flatten := by
  rw [(holds_of_ofGroups hok).mem_iff, map_fst_entriesOf]
  exact iff_of_eq (congrArg (file ∈ ·) p.flatMap_stageGroups)

theorem size_stageMap {table : FileTable Nat} (hok : p.stageMap = .ok table) :
    table.size = p.stages.flatten.length := by
  rw [(holds_of_ofGroups hok).size_eq_flatMap]
  exact congrArg List.length p.flatMap_stageGroups

/-- A plan without repeated files has each file in one stage. -/
theorem Places.unique (hnodup : p.stages.flatten.Nodup) {file : String} {k l : Nat}
    (hk : p.Places k file) (hl : p.Places l file) : k = l := by
  obtain ⟨table, htable⟩ := stageMap_eq_ok_iff.mpr hnodup
  rw [← get?_stageMap htable] at hk hl
  exact Option.some.inj (hk.symm.trans hl)

/-! ## What is checked -/

/-- The stages of the two ends of an include: the same for files of one component, and
otherwise an earlier one for the included file. -/
def Orders (p : Plan) (c : Condensed) (source target : String) : Prop :=
  ∃ k l, p.Places k source ∧ p.Places l target ∧
    if c.componentOf source = c.componentOf target then k = l else l < k

/-! ## The guarded check -/

/-- Checks includes in order, and gives up at a file without a stage. -/
def checkIncludes? (c : Condensed) (stages : FileTable Nat) :
    List (String × String) → Option (Except AnalysisError Unit)
  | [] => some (.ok ())
  | (source, target) :: rest =>
    if source ∈ stages ∧ target ∈ stages then
      match checkInclude c stages source target with
      | .ok () => checkIncludes? c stages rest
      | .error e => some (.error e)
    else none

def verify? (p : Plan) (g : FileGraph) (c : Condensed) : Option (Except AnalysisError Unit) :=
  match p.stageMap with
  | .error e => some (.error e)
  | .ok stages =>
    match g.names.toList.find? fun file => !stages.contains file with
    | some file => some (.error (.invariantViolation (.missingFile file)))
    | none =>
      if stages.size ≠ g.size then some (.error (.invariantViolation .foreignFiles))
      else checkIncludes? c stages (FileGraph.edgeNames g.names g.links)

/-- Includes between files that all have a stage can be checked. -/
theorem checkIncludes?_eq (pairs : List (String × String))
    (hall : ∀ pair ∈ pairs, pair.1 ∈ table ∧ pair.2 ∈ table) :
    checkIncludes? c table pairs =
      some (pairs.forM fun (source, target) => checkInclude c table source target) := by
  induction pairs with
  | nil => rfl
  | cons pair pairs ih =>
      obtain ⟨source, target⟩ := pair
      obtain ⟨hends, hrest⟩ := List.forall_mem_cons.mp hall
      rw [checkIncludes?, if_pos hends]
      change _ = some (checkInclude c table source target >>= fun _ => pairs.forM _)
      cases checkInclude c table source target with
      | error e => rfl
      | ok value => exact ih hrest

/-- The ends of an edge are names of nodes. -/
theorem mem_names_of_mem_edgeNames {pair : String × String}
    (hpair : pair ∈ FileGraph.edgeNames g.names g.links) :
    pair.1 ∈ g.names.toList ∧ pair.2 ∈ g.names.toList := by
  obtain ⟨e, _, rfl⟩ := List.mem_map.mp hpair
  exact ⟨mem_toList_iff_get.mpr ⟨e.1, rfl⟩, mem_toList_iff_get.mpr ⟨e.2, rfl⟩⟩

theorem verify?_eq (p : Plan) (g : FileGraph) (c : Condensed) :
    p.verify? g c = some (p.verify g c) := by
  unfold verify? verify
  cases p.stageMap with
  | error e => rfl
  | ok table =>
      simp only [ok_bind]
      cases hmissing : g.names.toList.find? fun file => !table.contains file with
      | some file => rfl
      | none =>
          have hlisted : ∀ file ∈ g.names.toList, file ∈ table := by
            simpa using List.find?_eq_none.mp hmissing
          by_cases hsize : table.size = g.size
          · simp only [hsize, ne_eq, not_true_eq_false, if_false]
            refine checkIncludes?_eq _ fun pair hpair => ?_
            obtain ⟨hsource, htarget⟩ := mem_names_of_mem_edgeNames hpair
            exact ⟨hlisted _ hsource, hlisted _ htarget⟩
          · simp only [hsize, ne_eq, not_false_eq_true, if_true]
            rfl

/-! ## The rules -/

/-- The plan lists no name twice, lists the name of every node, and lists as many names as
there are nodes. -/
structure ListsFiles (p : Plan) (g : FileGraph) : Prop where
  nodup : p.stages.flatten.Nodup
  listed : ∀ file ∈ g.names.toList, file ∈ p.stages.flatten
  length_eq : p.stages.flatten.length = g.size

/-- The first rule that the plan breaks.  Names that are listed twice come first, in the order
of the plan, then names of nodes that are not listed, in the order of the nodes, then the
number of names, and last the stages of the ends of every edge, in the order of the edges. -/
inductive FirstBroken (p : Plan) (g : FileGraph) (c : Condensed) : Violation → Prop
  | repeated {file : String} (hrepeat : FirstRepeat [] p.stages.flatten file) :
      FirstBroken p g c (.repeatedFile file)
  | missing {file : String} (hnodup : p.stages.flatten.Nodup)
      (hfirst : FirstExcept (· ∈ p.stages.flatten) g.names.toList file) :
      FirstBroken p g c (.missingFile file)
  | foreign (hnodup : p.stages.flatten.Nodup)
      (hlisted : ∀ file ∈ g.names.toList, file ∈ p.stages.flatten)
      (hlength : p.stages.flatten.length ≠ g.size) :
      FirstBroken p g c .foreignFiles
  | split {source target : String} (hfiles : p.ListsFiles g)
      (hfirst : FirstExcept (fun pair => p.Orders c pair.1 pair.2)
        (FileGraph.edgeNames g.names g.links) (source, target))
      (hshared : c.componentOf source = c.componentOf target) :
      FirstBroken p g c (.splitCycle source target)
  | late {source target : String} {k l : Nat} (hfiles : p.ListsFiles g)
      (hfirst : FirstExcept (fun pair => p.Orders c pair.1 pair.2)
        (FileGraph.edgeNames g.names g.links) (source, target))
      (hapart : c.componentOf source ≠ c.componentOf target)
      (hsource : p.Places k source) (htarget : p.Places l target) :
      FirstBroken p g c (.lateDependency source k target l)

/-- A plan keeps all rules, or it breaks one of them first. -/
theorem keeps_or_firstBroken (p : Plan) (g : FileGraph) (c : Condensed) :
    (p.ListsFiles g ∧ ∀ pair ∈ FileGraph.edgeNames g.names g.links, p.Orders c pair.1 pair.2) ∨
      ∃ violation, p.FirstBroken g c violation := by
  by_cases hnodup : p.stages.flatten.Nodup
  · rcases all_or_firstExcept (· ∈ p.stages.flatten) g.names.toList with
      hlisted | ⟨file, hfirst⟩
    · by_cases hlength : p.stages.flatten.length = g.size
      · have hfiles : p.ListsFiles g := ⟨hnodup, hlisted, hlength⟩
        rcases all_or_firstExcept (fun pair => p.Orders c pair.1 pair.2)
          (FileGraph.edgeNames g.names g.links) with hordered | ⟨⟨source, target⟩, hfirst⟩
        · exact .inl ⟨hfiles, hordered⟩
        · by_cases hshared : c.componentOf source = c.componentOf target
          · exact .inr ⟨_, .split hfiles hfirst hshared⟩
          · obtain ⟨hsource, htarget⟩ := mem_names_of_mem_edgeNames hfirst.mem
            obtain ⟨k, hk⟩ := exists_places_iff.mpr (hlisted _ hsource)
            obtain ⟨l, hl⟩ := exists_places_iff.mpr (hlisted _ htarget)
            exact .inr ⟨_, .late hfiles hfirst hshared hk hl⟩
      · exact .inr ⟨_, .foreign hnodup hlisted hlength⟩
    · exact .inr ⟨_, .missing hnodup hfirst⟩
  · rcases ofGroups_holds_or_error .repeatedFile p.stageGroups with
      ⟨table, htable, _⟩ | ⟨file, hrepeat, _⟩
    · exact absurd (stageMap_eq_ok_iff.mp ⟨table, htable⟩) hnodup
    · rw [flatMap_stageGroups] at hrepeat
      exact .inr ⟨_, .repeated hrepeat⟩

/-! ## The verdict -/

theorem stageMap_of_firstRepeat {file : String}
    (hrepeat : FirstRepeat [] p.stages.flatten file) :
    p.stageMap = .error (.invariantViolation (.repeatedFile file)) := by
  rw [← flatMap_stageGroups] at hrepeat
  rcases ofGroups_holds_or_error .repeatedFile p.stageGroups with
    ⟨table, htable, _⟩ | ⟨other, hother, herror⟩
  · exact absurd ((ofGroups_eq_ok_iff _ _).mp ⟨table, htable⟩) hrepeat.not_nodup
  · rw [hrepeat.unique hother]
    exact herror

theorem find?_eq_none_iff_listed (htable : p.stageMap = .ok table) :
    (g.names.toList.find? fun file => !table.contains file) = none ↔
      ∀ file ∈ g.names.toList, file ∈ p.stages.flatten := by
  simp [mem_stageMap_iff htable]

/-- Once every node has a stage and no other name has one, the includes decide. -/
theorem ListsFiles.verify_eq (hfiles : p.ListsFiles g) (htable : p.stageMap = .ok table) :
    p.verify g c = (FileGraph.edgeNames g.names g.links).forM fun (source, target) =>
      checkInclude c table source target := by
  have hsize : table.size = g.size := (size_stageMap htable).trans hfiles.length_eq
  rw [verify, htable, ok_bind, (find?_eq_none_iff_listed htable).mpr hfiles.listed]
  simp only [hsize, ne_eq, not_true_eq_false, if_false]

/-- The check of an include, in terms of the stages of its ends. -/
theorem checkInclude_of_places (htable : p.stageMap = .ok table) {source target : String}
    {k l : Nat} (hsource : p.Places k source) (htarget : p.Places l target) :
    checkInclude c table source target =
      if c.componentOf source = c.componentOf target then
        if k ≠ l then .error (.invariantViolation (.splitCycle source target)) else .ok ()
      else if k ≤ l then .error (.invariantViolation (.lateDependency source k target l))
      else .ok () := by
  rw [← get?_stageMap htable] at hsource htarget
  simp only [checkInclude, Std.HashMap.getD_eq_getD_getElem?, hsource, htarget, Option.getD_some]

theorem checkInclude_eq_ok_iff (htable : p.stageMap = .ok table) {source target : String}
    {k l : Nat} (hsource : p.Places k source) (htarget : p.Places l target) :
    checkInclude c table source target = .ok () ↔
      if c.componentOf source = c.componentOf target then k = l else l < k := by
  rw [checkInclude_of_places htable hsource htarget]
  by_cases hshared : c.componentOf source = c.componentOf target
  · rw [if_pos hshared, if_pos hshared]
    by_cases hstages : k = l <;> simp [hstages]
  · rw [if_neg hshared, if_neg hshared]
    by_cases hstages : k ≤ l
    · simp [hstages]
    · simp [hstages, Nat.lt_of_not_le hstages]

/-- The check of an edge asks whether the plan orders its ends. -/
theorem ListsFiles.checkInclude_eq_ok_iff_orders (hfiles : p.ListsFiles g)
    (htable : p.stageMap = .ok table) {pair : String × String}
    (hpair : pair ∈ FileGraph.edgeNames g.names g.links) :
    checkInclude c table pair.1 pair.2 = .ok () ↔ p.Orders c pair.1 pair.2 := by
  obtain ⟨hsource, htarget⟩ := mem_names_of_mem_edgeNames hpair
  obtain ⟨k, hk⟩ := exists_places_iff.mpr (hfiles.listed _ hsource)
  obtain ⟨l, hl⟩ := exists_places_iff.mpr (hfiles.listed _ htarget)
  rw [checkInclude_eq_ok_iff htable hk hl]
  constructor
  · exact fun hordered => ⟨k, l, hk, hl, hordered⟩
  · rintro ⟨k', l', hk', hl', hordered⟩
    rwa [hk'.unique hfiles.nodup hk, hl'.unique hfiles.nodup hl] at hordered

theorem verify_of_orders (hfiles : p.ListsFiles g)
    (hordered : ∀ pair ∈ FileGraph.edgeNames g.names g.links, p.Orders c pair.1 pair.2) :
    p.verify g c = .ok () := by
  obtain ⟨table, htable⟩ := stageMap_eq_ok_iff.mpr hfiles.nodup
  rw [hfiles.verify_eq htable, forM_eq_ok_iff]
  intro pair hpair
  exact (hfiles.checkInclude_eq_ok_iff_orders htable hpair).mpr (hordered pair hpair)

/-- Where the plan does not order the ends of an edge, the verdict on the first such edge is the
verdict on the plan. -/
theorem ListsFiles.verify_eq_error (hfiles : p.ListsFiles g) (htable : p.stageMap = .ok table)
    {source target : String} {e : AnalysisError}
    (hfirst : FirstExcept (fun pair => p.Orders c pair.1 pair.2)
      (FileGraph.edgeNames g.names g.links) (source, target))
    (herror : checkInclude c table source target = .error e) : p.verify g c = .error e := by
  have hcheck := hfirst.of_iff fun pair hpair =>
    (hfiles.checkInclude_eq_ok_iff_orders htable hpair).symm
  rw [hfiles.verify_eq htable]
  exact forM_eq_error_of_firstExcept hcheck herror

/-- The verdict names the first broken rule. -/
theorem FirstBroken.verify_eq {violation : Violation} (h : p.FirstBroken g c violation) :
    p.verify g c = .error (.invariantViolation violation) := by
  cases h with
  | repeated hrepeat => rw [verify, stageMap_of_firstRepeat hrepeat, error_bind]
  | @missing file hnodup hfirst =>
      obtain ⟨table, htable⟩ := stageMap_eq_ok_iff.mpr hnodup
      have hfound : (g.names.toList.find? fun file => !table.contains file) = some file := by
        obtain ⟨before, after, hnames, hbefore, hfile⟩ := hfirst
        rw [List.find?_eq_some_iff_append]
        refine ⟨by simpa using mt (mem_stageMap_iff htable file).mp hfile, before, after,
          hnames, ?_⟩
        intro other hother
        simpa using (mem_stageMap_iff htable other).mpr (hbefore other hother)
      rw [verify, htable, ok_bind, hfound]
      rfl
  | foreign hnodup hlisted hlength =>
      obtain ⟨table, htable⟩ := stageMap_eq_ok_iff.mpr hnodup
      have hsize : table.size ≠ g.size := by rwa [size_stageMap htable]
      rw [verify, htable, ok_bind, (find?_eq_none_iff_listed htable).mpr hlisted]
      simp only [hsize, ne_eq, not_false_eq_true, if_true]
      rfl
  | @split source target hfiles hfirst hshared =>
      obtain ⟨table, htable⟩ := stageMap_eq_ok_iff.mpr hfiles.nodup
      obtain ⟨hsource, htarget⟩ := mem_names_of_mem_edgeNames hfirst.mem
      obtain ⟨k, hk⟩ := exists_places_iff.mpr (hfiles.listed _ hsource)
      obtain ⟨l, hl⟩ := exists_places_iff.mpr (hfiles.listed _ htarget)
      have hsplit : k ≠ l := fun heq => hfirst.not_holds ⟨k, l, hk, hl, by rwa [if_pos hshared]⟩
      apply hfiles.verify_eq_error htable hfirst
      rw [checkInclude_of_places htable hk hl, if_pos hshared, if_pos hsplit]
  | @late source target k l hfiles hfirst hapart hsource htarget =>
      obtain ⟨table, htable⟩ := stageMap_eq_ok_iff.mpr hfiles.nodup
      have hlate : k ≤ l := by
        by_contra hearly
        exact hfirst.not_holds
          ⟨k, l, hsource, htarget, by rw [if_neg hapart]; exact Nat.lt_of_not_le hearly⟩
      apply hfiles.verify_eq_error htable hfirst
      rw [checkInclude_of_places htable hsource htarget, if_neg hapart, if_pos hlate]

/-- A plan is accepted exactly if it keeps all rules. -/
theorem verify_eq_ok_iff_orders : p.verify g c = .ok () ↔ p.ListsFiles g ∧
    ∀ pair ∈ FileGraph.edgeNames g.names g.links, p.Orders c pair.1 pair.2 := by
  constructor
  · intro hok
    rcases keeps_or_firstBroken p g c with hkeeps | ⟨violation, hbroken⟩
    · exact hkeeps
    · rw [hbroken.verify_eq] at hok
      cases hok
  · exact fun hkeeps => verify_of_orders hkeeps.1 hkeeps.2

theorem verify_eq_error_iff {error : AnalysisError} : p.verify g c = .error error ↔
    ∃ violation, p.FirstBroken g c violation ∧ error = .invariantViolation violation := by
  constructor
  · intro herror
    rcases keeps_or_firstBroken p g c with ⟨hfiles, hordered⟩ | ⟨violation, hbroken⟩
    · rw [verify_of_orders hfiles hordered] at herror
      cases herror
    · rw [hbroken.verify_eq] at herror
      exact ⟨violation, hbroken, (Except.error.inj herror).symm⟩
  · rintro ⟨violation, hbroken, rfl⟩
    exact hbroken.verify_eq

theorem listsFiles_iff : p.ListsFiles g ↔ p.stages.flatten.Nodup ∧
    (∀ file ∈ g.names.toList, file ∈ p.stages.flatten) ∧ p.stages.flatten.length = g.size :=
  ⟨fun ⟨hnodup, hlisted, hlength⟩ => ⟨hnodup, hlisted, hlength⟩,
    fun ⟨hnodup, hlisted, hlength⟩ => ⟨hnodup, hlisted, hlength⟩⟩

/-- Checking a plan never lacks the stage of a file.  A plan is accepted exactly if it lists the
files of the graph and orders the ends of every edge, and any other plan is refused because of
the rule that it breaks first. -/
theorem verify_finds_first_broken (p : Plan) (g : FileGraph) (c : Condensed) :
    p.verify? g c = some (p.verify g c) ∧
      (p.verify g c = .ok () ↔
        (p.stages.flatten.Nodup ∧ (∀ file ∈ g.names.toList, file ∈ p.stages.flatten) ∧
          p.stages.flatten.length = g.size) ∧
        ∀ pair ∈ FileGraph.edgeNames g.names g.links, p.Orders c pair.1 pair.2) ∧
      ∀ error, p.verify g c = .error error ↔
        ∃ violation, p.FirstBroken g c violation ∧ error = .invariantViolation violation := by
  refine ⟨verify?_eq p g c, ?_, fun error => verify_eq_error_iff⟩
  rw [verify_eq_ok_iff_orders, listsFiles_iff]

end IncludeGraph.Plan
