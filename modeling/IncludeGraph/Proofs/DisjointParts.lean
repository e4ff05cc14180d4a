import IncludeGraph.Proofs.Counts
import IncludeGraph.Proofs.Locality
import IncludeGraph.Proofs.Neighbours

/-!
# Disjoint parts

Two projects without a common file name can be analyzed together or one by one.  No include
leads from one to the other, so that every file has the same includes, the same cycle-mates
and the same height in the whole as in its part, and the report of the whole is put together
from the reports of the parts: stages are merged one by one, and all counters add up.
-/

namespace IncludeGraph

variable {units others whole left right : List SourceUnit} {name other : String} {k : Nat}

/-- The whole consists of two parts that are complete in themselves and share no file. -/
structure Splits (whole left right : List SourceUnit) : Prop where
  known_iff : ∀ name, Known whole name ↔ Known left name ∨ Known right name
  includes_iff : ∀ source target,
    Includes whole source target ↔ Includes left source target ∨ Includes right source target
  apart : ∀ name, Known left name → ¬ Known right name
  left_closed : ∀ source target, Includes left source target → Known left target
  right_closed : ∀ source target, Includes right source target → Known right target

theorem known_append : Known (units ++ others) name ↔ Known units name ∨ Known others name := by
  simp only [Known, List.mem_append, or_and_right, exists_or]

theorem includes_append {source target : String} : Includes (units ++ others) source target ↔
    Includes units source target ∨ Includes others source target := by
  simp only [Includes, List.mem_append, or_and_right, exists_or]

namespace Splits

theorem symm (h : Splits whole left right) : Splits whole right left where
  known_iff name := (h.known_iff name).trans or_comm
  includes_iff source target := (h.includes_iff source target).trans or_comm
  apart name hright hleft := h.apart name hleft hright
  left_closed := h.right_closed
  right_closed := h.left_closed

theorem known_left (h : Splits whole left right) (hname : Known left name) : Known whole name :=
  (h.known_iff name).mpr (.inl hname)

theorem known_target (h : Splits whole left right) {source target : String}
    (hincludes : Includes whole source target) : Known whole target := by
  rcases (h.includes_iff source target).mp hincludes with hleft | hright
  · exact h.known_left (h.left_closed source target hleft)
  · exact h.symm.known_left (h.right_closed source target hright)

/-- What depends on one file, and holds of files only, holds in the whole if it holds in a
part. -/
theorem iff_or (h : Splits whole left right) (property : List SourceUnit → Prop)
    (hknown : ∀ units, property units → Known units name)
    (hleft : Known left name → (property left ↔ property whole))
    (hright : Known right name → (property right ↔ property whole)) :
    property whole ↔ property left ∨ property right := by
  constructor
  · intro hwhole
    rcases (h.known_iff name).mp (hknown whole hwhole) with hname | hname
    · exact .inl ((hleft hname).mpr hwhole)
    · exact .inr ((hright hname).mpr hwhole)
  · rintro (hpart | hpart)
    · exact (hleft (hknown left hpart)).mp hpart
    · exact (hright (hknown right hpart)).mp hpart

/-! ## Files of the left part -/

theorem includes_left_iff (h : Splits whole left right) (hname : Known left name) :
    Includes left name other ↔ Includes whole name other := by
  rw [h.includes_iff, iff_self_or]
  exact fun hincludes => absurd hincludes.known_source (h.apart name hname)

theorem included_left_iff (h : Splits whole left right) (hname : Known left name) :
    Includes left other name ↔ Includes whole other name := by
  rw [h.includes_iff, iff_self_or]
  exact fun hincludes => absurd (h.right_closed other name hincludes) (h.apart name hname)

/-- The files that a file of the left part reaches have all of their includes there. -/
theorem agreeFrom (h : Splits whole left right) (hname : Known left name) :
    AgreeFrom left whole name := by
  intro next hchain target
  have hnext : Known left next := by
    induction hchain with
    | refl => exact hname
    | tail _ hincludes _ => exact h.left_closed _ _ hincludes
  exact h.includes_left_iff hnext

theorem height_left_iff (h : Splits whole left right) (hname : Known left name) :
    Height left name k ↔ Height whole name k :=
  (h.agreeFrom hname).height_iff hname (h.known_left hname)

theorem isClass_left_iff (h : Splits whole left right) {component : Component}
    (hname : Known left name) (hmember : name ∈ component.members) :
    component.IsClass left ↔ component.IsClass whole :=
  (h.agreeFrom hname).isClass_iff hname (h.known_left hname) hmember

theorem isolated_left_iff (h : Splits whole left right) (hname : Known left name) :
    Isolated left name ↔ Isolated whole name := by
  simp only [Isolated, h.includes_left_iff hname, h.included_left_iff hname, hname,
    h.known_left hname]

/-- Includes join a file of the left part to no others than in this part. -/
theorem part_left_eq (h : Splits whole left right) (hname : Known left name) :
    part left name = part whole name := by
  have hinside : ∀ {a b}, Relation.EqvGen (Includes whole) a b →
      (Known left a ↔ Known left b) ∧ (Known left a → Relation.EqvGen (Includes left) a b) := by
    intro a b hjoined
    induction hjoined with
    | rel source target hincludes =>
        rcases (h.includes_iff source target).mp hincludes with hleft | hright
        · exact ⟨iff_of_true hleft.known_source (h.left_closed _ _ hleft), fun _ => .rel _ _ hleft⟩
        · have hsource : ¬ Known left source := h.symm.apart _ hright.known_source
          exact ⟨iff_of_false hsource (h.symm.apart _ (h.right_closed _ _ hright)),
            fun hleft => absurd hleft hsource⟩
    | refl _ => exact ⟨Iff.rfl, fun _ => .refl _⟩
    | symm _ _ _ ih => exact ⟨ih.1.symm, fun hb => .symm _ _ (ih.2 (ih.1.mpr hb))⟩
    | trans _ _ _ _ _ hfirst hsecond =>
        exact ⟨hfirst.1.trans hsecond.1, fun ha =>
          .trans _ _ _ (hfirst.2 ha) (hsecond.2 (hfirst.1.mp ha))⟩
  have hmono : Includes left ≤ Includes whole := fun source target hincludes =>
    (h.includes_iff source target).mpr (.inl hincludes)
  ext other
  exact ⟨Relation.EqvGen.mono hmono name other, fun hjoined => (hinside hjoined).2 hname⟩

/-! ## The whole -/

theorem height_iff (h : Splits whole left right) :
    Height whole name k ↔ Height left name k ∨ Height right name k :=
  h.iff_or (Height · name k) (fun _ => Height.known) h.height_left_iff h.symm.height_left_iff

theorem isClass_iff (h : Splits whole left right) {component : Component} :
    component.IsClass whole ↔ component.IsClass left ∨ component.IsClass right := by
  by_cases hempty : component.members = []
  · refine iff_of_false (fun hclass => hclass.ne_nil hempty) ?_
    rintro (hclass | hclass) <;> exact hclass.ne_nil hempty
  · obtain ⟨name, hname⟩ := List.exists_mem_of_ne_nil _ hempty
    exact h.iff_or component.IsClass (fun _ hclass => hclass.known hname)
      (fun hknown => h.isClass_left_iff hknown hname)
      fun hknown => h.symm.isClass_left_iff hknown hname

theorem isolated_iff (h : Splits whole left right) :
    Isolated whole name ↔ Isolated left name ∨ Isolated right name :=
  h.iff_or (Isolated · name) (fun _ => And.left) h.isolated_left_iff h.symm.isolated_left_iff

theorem part_iff (h : Splits whole left right) {names : Set String} :
    (∃ name, Known whole name ∧ part whole name = names) ↔
      (∃ name, Known left name ∧ part left name = names) ∨
        ∃ name, Known right name ∧ part right name = names := by
  rw [← exists_or]
  refine exists_congr fun name => h.iff_or (fun units => Known units name ∧ part units name = names)
    (fun _ => And.left) (fun hname => ?_) fun hname => ?_
  · rw [h.part_left_eq hname, and_congr_left_iff]
    exact fun _ => iff_of_true hname (h.known_left hname)
  · rw [h.symm.part_left_eq hname, and_congr_left_iff]
    exact fun _ => iff_of_true hname (h.symm.known_left hname)

theorem classEdge_left (h : Splits whole left right) {c d : Component}
    (hedge : ClassEdge left c d) : ClassEdge whole c d := by
  obtain ⟨hc, hd, hne, source, hsource, target, htarget, hincludes⟩ := hedge
  exact ⟨h.isClass_iff.mpr (.inl hc), h.isClass_iff.mpr (.inl hd), hne, source, hsource, target,
    htarget, (h.includes_iff source target).mpr (.inl hincludes)⟩

theorem classEdge_of_isClass_left (h : Splits whole left right) {c d : Component}
    (hc : c.IsClass left) (hedge : ClassEdge whole c d) : ClassEdge left c d := by
  obtain ⟨_, hd, hne, source, hsource, target, htarget, hincludes⟩ := hedge
  have hleft := (h.includes_left_iff (hc.known hsource)).mpr hincludes
  exact ⟨hc, (h.isClass_left_iff (h.left_closed source target hleft) htarget).mpr hd, hne, source,
    hsource, target, htarget, hleft⟩

theorem classEdge_iff (h : Splits whole left right) {c d : Component} :
    ClassEdge whole c d ↔ ClassEdge left c d ∨ ClassEdge right c d := by
  constructor
  · intro hedge
    rcases h.isClass_iff.mp hedge.source_isClass with hc | hc
    · exact .inl (h.classEdge_of_isClass_left hc hedge)
    · exact .inr (h.symm.classEdge_of_isClass_left hc hedge)
  · rintro (hedge | hedge)
    · exact h.classEdge_left hedge
    · exact h.symm.classEdge_left hedge

/-- No class belongs to both parts. -/
theorem not_isClass_right (h : Splits whole left right) {component : Component}
    (hclass : component.IsClass left) : ¬ component.IsClass right := by
  intro hclass'
  obtain ⟨name, hname⟩ := List.exists_mem_of_ne_nil _ hclass.ne_nil
  exact h.apart name (hclass.known hname) (hclass'.known hname)

end Splits

/-! ## Counters -/

section Sums

variable {α : Type} {inWhole inLeft inRight : α → Prop} {m n total : Nat}

/-- What two parts have between them, and nothing in common, is counted part by part. -/
theorem eq_add_of_encard_eq (htotal : (total : ℕ∞) = {x | inWhole x}.encard)
    (hm : (m : ℕ∞) = {x | inLeft x}.encard) (hn : (n : ℕ∞) = {x | inRight x}.encard)
    (hor : ∀ x, inWhole x ↔ inLeft x ∨ inRight x) (hapart : ∀ x, inLeft x → ¬ inRight x) :
    total = m + n := by
  have hunion : {x | inWhole x} = {x | inLeft x} ∪ {x | inRight x} := Set.ext hor
  have hdisjoint : Disjoint {x | inLeft x} {x | inRight x} := Set.disjoint_left.mpr hapart
  rw [hunion, Set.encard_union_eq hdisjoint, ← hm, ← hn] at htotal
  exact_mod_cast htotal

/-- Where no name has others in both parts, the most that a name has in the whole are the most
that one has in a part. -/
theorem eq_max_of_iSup_encard_eq {inWhole inLeft inRight : String → String → Prop}
    (htotal : (total : ℕ∞) = ⨆ name, {other | inWhole name other}.encard)
    (hm : (m : ℕ∞) = ⨆ name, {other | inLeft name other}.encard)
    (hn : (n : ℕ∞) = ⨆ name, {other | inRight name other}.encard)
    (hor : ∀ name other, inWhole name other ↔ inLeft name other ∨ inRight name other)
    (hapart : ∀ name other other', inLeft name other → ¬ inRight name other') :
    total = max m n := by
  have hname : ∀ name, {other | inWhole name other}.encard =
      {other | inLeft name other}.encard ⊔ {other | inRight name other}.encard := by
    intro name
    by_cases hleft : ∃ other, inLeft name other
    · obtain ⟨other, hother⟩ := hleft
      have hright : ∀ other', ¬ inRight name other' := fun other' => hapart name other other' hother
      simp [hor, hright]
    · simp [hor, not_exists.mp hleft]
  simp only [hname, iSup_sup_eq] at htotal
  rw [← hm, ← hn, ← natCast_max] at htotal
  exact_mod_cast htotal

end Sums

namespace Stats

/-- All counters of the whole are the sums of those of the parts, and the greatest degrees are
the greater ones of the two. -/
structure Combines (whole left right : Stats) : Prop where
  fileCount_eq : whole.fileCount = left.fileCount + right.fileCount
  edgeCount_eq : whole.edgeCount = left.edgeCount + right.edgeCount
  componentCount_eq : whole.componentCount = left.componentCount + right.componentCount
  cycleCount_eq : whole.cycleCount = left.cycleCount + right.cycleCount
  selfIncludeCount_eq : whole.selfIncludeCount = left.selfIncludeCount + right.selfIncludeCount
  weaklyConnectedComponentCount_eq : whole.weaklyConnectedComponentCount =
    left.weaklyConnectedComponentCount + right.weaklyConnectedComponentCount
  isolatedFileCount_eq :
    whole.isolatedFileCount = left.isolatedFileCount + right.isolatedFileCount
  condensedEdgeCount_eq :
    whole.condensedEdgeCount = left.condensedEdgeCount + right.condensedEdgeCount
  maxInDegree_eq : whole.maxInDegree = max left.maxInDegree right.maxInDegree
  maxOutDegree_eq : whole.maxOutDegree = max left.maxOutDegree right.maxOutDegree

theorem Counts.combines {stats leftStats rightStats : Stats} (hwhole : stats.Counts whole)
    (hleft : leftStats.Counts left) (hright : rightStats.Counts right)
    (h : Splits whole left right) : stats.Combines leftStats rightStats where
  fileCount_eq := eq_add_of_encard_eq hwhole.fileCount_eq hleft.fileCount_eq hright.fileCount_eq
    h.known_iff h.apart
  edgeCount_eq := eq_add_of_encard_eq hwhole.edgeCount_eq hleft.edgeCount_eq hright.edgeCount_eq
    (fun pair => h.includes_iff pair.1 pair.2)
    fun pair hincludes hother => h.apart pair.1 hincludes.known_source hother.known_source
  componentCount_eq := eq_add_of_encard_eq hwhole.componentCount_eq hleft.componentCount_eq
    hright.componentCount_eq (fun _ => h.isClass_iff) fun _ => h.not_isClass_right
  cycleCount_eq := eq_add_of_encard_eq hwhole.cycleCount_eq hleft.cycleCount_eq
    hright.cycleCount_eq (fun _ => by rw [h.isClass_iff, or_and_right])
    fun _ hclass hother => h.not_isClass_right hclass.1 hother.1
  selfIncludeCount_eq := eq_add_of_encard_eq hwhole.selfIncludeCount_eq
    hleft.selfIncludeCount_eq hright.selfIncludeCount_eq (fun name => h.includes_iff name name)
    fun name hincludes hother => h.apart name hincludes.known_source hother.known_source
  weaklyConnectedComponentCount_eq := by
    refine eq_add_of_encard_eq hwhole.weaklyConnectedComponentCount_eq
      hleft.weaklyConnectedComponentCount_eq hright.weaklyConnectedComponentCount_eq
      (fun _ => h.part_iff) ?_
    rintro _ ⟨name, hname, rfl⟩ ⟨other, hother, hsame⟩
    have hjoined : name ∈ part right other := hsame ▸ Relation.EqvGen.refl name
    exact h.apart name hname ((known_iff_of_joined h.right_closed hjoined).mp hother)
  isolatedFileCount_eq := eq_add_of_encard_eq hwhole.isolatedFileCount_eq
    hleft.isolatedFileCount_eq hright.isolatedFileCount_eq (fun _ => h.isolated_iff)
    fun name hname hother => h.apart name hname.1 hother.1
  condensedEdgeCount_eq := eq_add_of_encard_eq hwhole.condensedEdgeCount_eq
    hleft.condensedEdgeCount_eq hright.condensedEdgeCount_eq (fun _ => h.classEdge_iff)
    fun _ hedge hother => h.not_isClass_right hedge.source_isClass hother.source_isClass
  maxInDegree_eq := eq_max_of_iSup_encard_eq hwhole.maxInDegree_eq hleft.maxInDegree_eq
    hright.maxInDegree_eq (fun name source => h.includes_iff source name)
    fun name source source' hincludes hother =>
      h.apart name (h.left_closed source name hincludes) (h.right_closed source' name hother)
  maxOutDegree_eq := eq_max_of_iSup_encard_eq hwhole.maxOutDegree_eq hleft.maxOutDegree_eq
    hright.maxOutDegree_eq h.includes_iff
    fun name _ _ hincludes hother => h.apart name hincludes.known_source hother.known_source

end Stats

/-! ## Reports -/

/-- The listing has the entries of both others, in the order of the files. -/
structure Merges (whole left right : List (String × List String)) : Prop where
  perm : whole.Perm (left ++ right)
  sorted : (whole.map Prod.fst).Pairwise (· < ·)

/-- The listings of both parts merge to that of the whole, if the files of each part have the
same names in the relation there. -/
theorem Splits.merges (h : Splits whole left right)
    (relation : List SourceUnit → String → String → Prop)
    {entries leftEntries rightEntries : List (String × List String)}
    (hentries : IsListing whole (relation whole) entries)
    (hleft : IsListing left (relation left) leftEntries)
    (hright : IsListing right (relation right) rightEntries)
    (hsameLeft : ∀ name, Known left name → ∀ other, relation left name other ↔
      relation whole name other)
    (hsameRight : ∀ name, Known right name → ∀ other, relation right name other ↔
      relation whole name other) :
    Merges entries leftEntries rightEntries where
  sorted := hentries.sorted
  perm := by
    have hnodup : (leftEntries ++ rightEntries).Nodup := by
      refine List.nodup_append.mpr ⟨hleft.nodup, hright.nodup, ?_⟩
      rintro ⟨name, names⟩ hentry _ hother rfl
      exact h.apart name ((hleft.mem_iff name names).mp hentry).1
        ((hright.mem_iff name names).mp hother).1
    apply (List.perm_ext_iff_of_nodup hentries.nodup hnodup).mpr
    rintro ⟨name, names⟩
    rw [List.mem_append, hentries.mem_iff, hleft.mem_iff, hright.mem_iff]
    refine h.iff_or (fun units => Known units name ∧ names.Pairwise (· < ·) ∧
      ∀ other, other ∈ names ↔ relation units name other) (fun _ => And.left)
      (fun hname => ?_) fun hname => ?_
    · simp only [hname, h.known_left hname, hsameLeft name hname]
    · simp only [hname, h.symm.known_left hname, hsameRight name hname]

namespace Gathered

variable {policy : SelfLoopPolicy} {report leftReport rightReport : Report}
  {g leftGraph rightGraph : FileGraph} {c leftCondensed rightCondensed : Condensed}
  {count leftCount rightCount : Nat}

/-- A stage of the whole is the sorted union of the stages of the parts. -/
theorem getD_stages_eq (hr : Gathered whole policy report g c count)
    (hl : Gathered left policy leftReport leftGraph leftCondensed leftCount)
    (hr' : Gathered right policy rightReport rightGraph rightCondensed rightCount)
    (h : Splits whole left right) (k : Nat) :
    report.plan.stages.getD k [] = Text.sortNames
      (leftReport.plan.stages.getD k [] ++ rightReport.plan.stages.getD k []) := by
  apply Text.eq_sortNames_of_mem_iff (hr.pairwise_getD_stage k)
  · refine List.nodup_append.mpr ⟨(hl.pairwise_getD_stage k).nodup,
      (hr'.pairwise_getD_stage k).nodup, ?_⟩
    rintro name hname _ hother rfl
    exact h.apart name (hl.mem_stage_iff.mp hname).known (hr'.mem_stage_iff.mp hother).known
  · intro name
    rw [List.mem_append, hr.mem_stage_iff, hl.mem_stage_iff, hr'.mem_stage_iff, h.height_iff]

theorem length_stages_eq (hr : Gathered whole policy report g c count)
    (hl : Gathered left policy leftReport leftGraph leftCondensed leftCount)
    (hr' : Gathered right policy rightReport rightGraph rightCondensed rightCount)
    (h : Splits whole left right) : report.plan.stages.length =
      max leftReport.plan.stages.length rightReport.plan.stages.length := by
  apply eq_of_forall_lt_iff
  intro k
  rw [lt_max_iff, hr.lt_length_stages_iff, hl.lt_length_stages_iff, hr'.lt_length_stages_iff,
    ← exists_or]
  exact exists_congr fun name => h.height_iff

/-- The cycles of the whole are the sorted cycles of the parts. -/
theorem cycles_eq (hr : Gathered whole policy report g c count)
    (hl : Gathered left policy leftReport leftGraph leftCondensed leftCount)
    (hr' : Gathered right policy rightReport rightGraph rightCondensed rightCount)
    (h : Splits whole left right) :
    report.cycles = Text.sortNameLists (leftReport.cycles ++ rightReport.cycles) := by
  apply Text.eq_sortNameLists_of_mem_iff hr.pairwise_cycles
  · refine List.nodup_append.mpr ⟨hl.pairwise_cycles.nodup, hr'.pairwise_cycles.nodup, ?_⟩
    rintro cycle hcycle _ hother rfl
    obtain ⟨component, hclass, _, rfl⟩ := hl.mem_cycles_iff.mp hcycle
    obtain ⟨another, hclass', _, hmembers⟩ := hr'.mem_cycles_iff.mp hother
    obtain ⟨name, hname⟩ := List.exists_mem_of_ne_nil _ hclass.ne_nil
    exact h.apart name (hclass.known hname) (hclass'.known (hmembers ▸ hname))
  · intro cycle
    rw [List.mem_append, hr.mem_cycles_iff, hl.mem_cycles_iff, hr'.mem_cycles_iff, ← exists_or]
    exact exists_congr fun component => by rw [h.isClass_iff, or_and_right]

end Gathered

/-- Disjoint parts are analyzed independently.  Where two lists of units that have reports
share no name, both together have a report: its stages are the sorted unions of the stages of
the parts, its cycles are the cycles of both in order, its listings are merged, its counters
are sums and its greatest degrees the greater ones. -/
theorem analyze_append {policy : SelfLoopPolicy} {leftReport rightReport : Report}
    (hleft : analyze left policy = .ok leftReport)
    (hright : analyze right policy = .ok rightReport)
    (hapart : ∀ name, Known left name → ¬ Known right name) :
    ∃ report, analyze (left ++ right) policy = .ok report ∧
      (∀ k, report.plan.stages.getD k [] = Text.sortNames
        (leftReport.plan.stages.getD k [] ++ rightReport.plan.stages.getD k [])) ∧
      report.plan.stages.length =
        max leftReport.plan.stages.length rightReport.plan.stages.length ∧
      report.cycles = Text.sortNameLists (leftReport.cycles ++ rightReport.cycles) ∧
      Merges report.dependencies leftReport.dependencies rightReport.dependencies ∧
      Merges report.dependents leftReport.dependents rightReport.dependents ∧
      report.stats.Combines leftReport.stats rightReport.stats := by
  obtain ⟨leftGraph, leftCondensed, leftCount, hl⟩ := exists_gathered hleft
  obtain ⟨rightGraph, rightCondensed, rightCount, hr'⟩ := exists_gathered hright
  have h : Splits (left ++ right) left right := {
    known_iff := fun _ => known_append
    includes_iff := fun _ _ => includes_append
    apart := hapart
    left_closed := hl.represents.known
    right_closed := hr'.represents.known
  }
  have hall : ∀ unit ∈ left ++ right, ∀ name ∈ unit.includes, Known (left ++ right) name := by
    intro unit hunit name hname
    have hincludes : Includes (left ++ right) unit.name name := ⟨unit, hunit, rfl, hname⟩
    exact h.known_target hincludes
  obtain ⟨report, hreport⟩ := exists_analyze_of_known (left ++ right) policy hall
  obtain ⟨g, c, count, hr⟩ := exists_gathered hreport
  refine ⟨report, hreport, hr.getD_stages_eq hl hr' h, hr.length_stages_eq hl hr' h,
    hr.cycles_eq hl hr' h, ?_, ?_, hr.counts.combines hl.counts hr'.counts h⟩
  · exact h.merges Includes hr.isListing_dependencies hl.isListing_dependencies
      hr'.isListing_dependencies (fun _ hname _ => h.includes_left_iff hname)
      fun _ hname _ => h.symm.includes_left_iff hname
  · exact h.merges (fun units name other => Includes units other name) hr.isListing_dependents
      hl.isListing_dependents hr'.isListing_dependents
      (fun _ hname _ => h.included_left_iff hname)
      fun _ hname _ => h.symm.included_left_iff hname

/-- A tool beside the ring, with a header that includes itself. -/
def toolWithLog : List SourceUnit :=
  [⟨"tool.c", ["log.h"]⟩, ⟨"log.h", ["log.h"]⟩]

/-- The ring and the tool are reported together as they are one by one. -/
theorem analyze_append_ring : ∃ left right report, analyze Plan.ring .report = .ok left ∧
    analyze toolWithLog .report = .ok right ∧
    analyze (Plan.ring ++ toolWithLog) .report = .ok report ∧
    report.cycles = Text.sortNameLists (left.cycles ++ right.cycles) ∧
    report.plan.stages.getD 0 [] =
      Text.sortNames (left.plan.stages.getD 0 [] ++ right.plan.stages.getD 0 []) ∧
    report.stats.Combines left.stats right.stats := by
  obtain ⟨left, hleft⟩ := exists_analyze_of_known Plan.ring .report (by decide)
  obtain ⟨right, hright⟩ := exists_analyze_of_known toolWithLog .report (by decide)
  have hapart : ∀ name, Known Plan.ring name → ¬ Known toolWithLog name := by
    intro name hname
    rw [Plan.known_ring] at hname
    revert name
    decide
  obtain ⟨report, hreport, hstages, _, hcycles, _, _, hstats⟩ :=
    analyze_append hleft hright hapart
  exact ⟨left, right, report, hleft, hright, hreport, hcycles, hstages 0, hstats⟩

end IncludeGraph
