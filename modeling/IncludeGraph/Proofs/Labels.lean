import IncludeGraph.Proofs.Analysis
import IncludeGraph.Proofs.Components
import IncludeGraph.Proofs.Quoting

/-!
# Labels of components

The label of a group can be read back, so that groups with different members have different
labels, and so do single files.  The two kinds of labels are not kept apart: the name of a
single file stands in its label as it is, and may be the label of a group.  This is the
only way in which two entries of a condensed list come to share a label.
-/

namespace IncludeGraph

variable {units : List SourceUnit}

namespace Component

/-! ## Reading the label of a group -/

def joinedMembers (members : List String) : List Char :=
  List.intercalate [','] (members.map fun name => Text.quote name.toList)

theorem joinedMembers_cons_cons (name other : String) (members : List String) :
    joinedMembers (name :: other :: members) =
      Text.quote name.toList ++ ',' :: joinedMembers (other :: members) := by
  simp [joinedMembers, List.intercalate_cons_cons]

theorem length_le_length_joinedMembers (members : List String) :
    members.length ≤ (joinedMembers members).length := by
  induction members with
  | nil => exact Nat.zero_le _
  | cons name members ih =>
      have hquote := Text.two_le_length_quote name.toList
      cases members with
      | nil =>
          rw [joinedMembers, List.map_singleton, List.intercalate_singleton, List.length_singleton]
          omega
      | cons other members =>
          rw [joinedMembers_cons_cons, List.length_append, List.length_cons, List.length_cons]
          exact Nat.le_add_left_of_le (Nat.succ_le_succ ih)

/-- A quoted name is followed by a comma exactly if it is not the last one. -/
theorem readMembers_joinedMembers {members : List String} (hne : members ≠ []) {fuel : Nat}
    (hfuel : members.length ≤ fuel) :
    readMembers fuel (joinedMembers members ++ [']']) = some members := by
  induction members generalizing fuel with
  | nil => exact absurd rfl hne
  | cons name members ih =>
      obtain ⟨fuel, rfl⟩ : ∃ k, fuel = k + 1 := Nat.exists_eq_add_one.mpr (by
        rw [List.length_cons] at hfuel
        omega)
      cases members with
      | nil =>
          rw [joinedMembers, List.map_singleton, List.intercalate_singleton, readMembers,
            Text.unquote_quote_append]
          simp
      | cons other members =>
          rw [joinedMembers_cons_cons, List.append_assoc, readMembers, Text.unquote_quote_append]
          simp only [List.cons_append, ih (List.cons_ne_nil _ _) (Nat.le_of_succ_le_succ hfuel),
            Option.map_some, String.ofList_toList]

theorem groupLabel_eq (members : List String) :
    groupLabel members = 'S' :: 'C' :: 'C' :: '[' :: (joinedMembers members ++ [']']) := by
  change "SCC[".toList ++ joinedMembers members ++ [']'] = _
  simp

/-- The members of a group are read back from its label. -/
theorem readGroupLabel_groupLabel {members : List String} (hne : members ≠ []) :
    readGroupLabel (groupLabel members) = some members := by
  rw [groupLabel_eq, readGroupLabel]
  apply readMembers_joinedMembers hne
  have hlength := length_le_length_joinedMembers members
  rw [List.length_append]
  omega

theorem groupLabel_injective {members others : List String} (hne : members ≠ [])
    (hne' : others ≠ []) (heq : groupLabel members = groupLabel others) : members = others := by
  have hread := congrArg readGroupLabel heq
  rwa [readGroupLabel_groupLabel hne, readGroupLabel_groupLabel hne', Option.some.injEq] at hread

/-! ## Equal labels -/

variable {c d : Component}

theorem label_of_isCycle (h : c.isCycle = true) : c.label = String.ofList (groupLabel c.members) :=
  if_pos h

theorem toList_label (hlength : 2 ≤ c.members.length) :
    c.label.toList = groupLabel c.members := by
  rw [label_of_isCycle (isCycle_iff.mpr hlength), String.toList_ofList]

/-- A component that is no cycle has its only file, whose name is the label. -/
theorem members_eq_of_not_isCycle (hne : c.members ≠ []) (h : ¬ c.isCycle = true) :
    c.members = [c.label] := by
  rw [label, if_neg h, representative]
  rw [isCycle_iff] at h
  match hmembers : c.members with
  | [] => exact absurd hmembers hne
  | [name] => rfl
  | name :: other :: rest =>
      rw [hmembers] at h
      simp at h

/-- Two components share a label if they have the same members, or if one is a group and the
other a single file named like the label of the group. -/
theorem label_eq_iff (hc : c.members ≠ []) (hd : d.members ≠ []) : c.label = d.label ↔
    c.members = d.members ∨ 2 ≤ c.members.length ∧ d.members = [c.label] ∨
      2 ≤ d.members.length ∧ c.members = [d.label] := by
  constructor
  · intro heq
    by_cases hcycle : c.isCycle = true <;> by_cases hcycle' : d.isCycle = true
    · rw [label_of_isCycle hcycle, label_of_isCycle hcycle', String.ofList_inj] at heq
      exact .inl (groupLabel_injective hc hd heq)
    · have hsingle := members_eq_of_not_isCycle hd hcycle'
      exact .inr (.inl ⟨isCycle_iff.mp hcycle, heq ▸ hsingle⟩)
    · have hsingle := members_eq_of_not_isCycle hc hcycle
      exact .inr (.inr ⟨isCycle_iff.mp hcycle', heq ▸ hsingle⟩)
    · rw [members_eq_of_not_isCycle hc hcycle, members_eq_of_not_isCycle hd hcycle', heq]
      exact .inl rfl
  · rintro (hmembers | ⟨_, hmembers⟩ | ⟨_, hmembers⟩)
    · rw [label, label, isCycle, isCycle, representative, representative, hmembers]
    · simp [label, isCycle, representative, hmembers]
    · simp [label, isCycle, representative, hmembers]

/-- The label of a group is decoded into its members, whatever characters their names consist
of, so that groups with equal labels have equal members in equal order. -/
theorem label_decodes :
    (∀ c : Component, 2 ≤ c.members.length →
        readGroupLabel c.label.toList = some c.members) ∧
      ∀ c d : Component, 2 ≤ c.members.length → 2 ≤ d.members.length → c.label = d.label →
        c.members = d.members := by
  have hne : ∀ c : Component, 2 ≤ c.members.length → c.members ≠ [] := fun c hlength =>
    List.ne_nil_of_length_pos (by omega)
  constructor
  · intro c hlength
    rw [toList_label hlength]
    exact readGroupLabel_groupLabel (hne c hlength)
  · intro c d hc hd hlabel
    apply groupLabel_injective (hne c hc) (hne d hd)
    rw [← toList_label hc, ← toList_label hd, hlabel]

/-- Quotes and commas within names do not blur where a name ends. -/
theorem label_decodes_quotes :
    readGroupLabel (label ⟨["a\",\"b", "c\\"], false⟩).toList = some ["a\",\"b", "c\\"] ∧
      label ⟨["a\",\"b", "c"], false⟩ ≠ label ⟨["a", "b\",\"c"], false⟩ := by
  refine ⟨label_decodes.1 _ (by decide), fun hlabel => ?_⟩
  exact absurd (label_decodes.2 _ _ (by decide) (by decide) hlabel) (by decide)

end Component

/-! ## The condensed list of a report -/

namespace Report

variable {c : Condensed} {entry : CondensedEntry}

theorem mem_condensedEntries : entry ∈ condensedEntries c ↔ ∃ i, entry = {
    label := (c.components.get i).label
    members := (c.components.get i).members
    dependsOn := c.dependencyLabels.get i } := by
  simp [condensedEntries, eq_comm]

/-- The labels of the entries are those of the components. -/
theorem labels_condensedEntries_perm (c : Condensed) :
    ((condensedEntries c).map (·.label)).Perm (c.components.toList.map (·.label)) := by
  refine ((List.mergeSort_perm _ _).map _).trans (List.Perm.of_eq ?_)
  rw [vector_toList_eq_map_get, List.map_map, List.map_map]
  rfl

/-- A single file of the list is named like the label of a group of the list. -/
def LabelClash (entries : List CondensedEntry) : Prop :=
  ∃ group ∈ entries, ∃ single ∈ entries,
    2 ≤ group.members.length ∧ single.members = [group.label]

/-- Every label that an entry depends on is the label of an entry. -/
theorem exists_of_mem_dependsOn (hentry : entry ∈ condensedEntries c) {label : String}
    (hlabel : label ∈ entry.dependsOn) : ∃ other ∈ condensedEntries c, other.label = label := by
  obtain ⟨i, rfl⟩ := mem_condensedEntries.mp hentry
  rw [Condensed.dependencyLabels, vector_get_map, Text.mem_sortNames, List.mem_map] at hlabel
  obtain ⟨j, _, rfl⟩ := hlabel
  exact ⟨_, mem_condensedEntries.mpr ⟨j, rfl⟩, rfl⟩

end Report

namespace Gathered

variable {policy : SelfLoopPolicy} {report : Report} {g : FileGraph} {c : Condensed} {count : Nat}

theorem labelClash_iff (h : Gathered units policy report g c count) :
    Report.LabelClash report.condensed ↔ ∃ group ∈ g.components, ∃ single ∈ g.components,
      2 ≤ group.members.length ∧ single.members = [group.label] := by
  obtain rfl := h.report_eq
  simp only [Report.LabelClash, Report.gather, Report.mem_condensedEntries,
    ← h.condenses.toList_eq, mem_toList_iff_get]
  grind

theorem nodup_labels_iff (h : Gathered units policy report g c count) :
    (report.condensed.map (·.label)).Nodup ↔ ¬ Report.LabelClash report.condensed := by
  have hclass : ∀ component ∈ g.components, component.IsClass units :=
    fun _ => h.represents.isClass
  have hperm : (report.condensed.map (·.label)).Perm (g.components.map (·.label)) := by
    obtain rfl := h.report_eq
    exact h.condenses.toList_eq ▸ Report.labels_condensedEntries_perm c
  rw [hperm.nodup_iff, List.nodup_map_iff_inj_on (FileGraph.nodup_components h.represents.nodup),
    h.labelClash_iff]
  constructor
  · rintro hinj ⟨group, hgroup, single, hsingle, hlength, hmembers⟩
    have hlabel : group.label = single.label :=
      (Component.label_eq_iff (hclass group hgroup).ne_nil (hclass single hsingle).ne_nil).mpr
        (.inr (.inl ⟨hlength, hmembers⟩))
    obtain rfl := hinj group hgroup single hsingle hlabel
    rw [hmembers] at hlength
    simp at hlength
  · intro hclash a ha b hb hlabel
    rcases (Component.label_eq_iff (hclass a ha).ne_nil (hclass b hb).ne_nil).mp hlabel with
      hmembers | hgroup | hgroup
    · obtain ⟨name, hname⟩ := List.exists_mem_of_ne_nil _ (hclass a ha).ne_nil
      exact (hclass a ha).eq_of_mem (hclass b hb) hname (hmembers ▸ hname)
    · exact absurd ⟨a, ha, b, hb, hgroup⟩ hclash
    · exact absurd ⟨b, hb, a, ha, hgroup⟩ hclash

/-- Names that do not begin like the label of a group keep the labels distinct. -/
theorem not_labelClash_of_prefix (h : Gathered units policy report g c count)
    (hnames : ∀ unit ∈ units, ¬ "SCC[".toList <+: unit.name.toList) :
    ¬ Report.LabelClash report.condensed := by
  rw [h.labelClash_iff]
  rintro ⟨group, _, single, hsingle, hlength, hmembers⟩
  have hmem : group.label ∈ single.members := by
    rw [hmembers]
    exact List.mem_singleton_self _
  obtain ⟨unit, hunit, hname⟩ := (h.represents.isClass hsingle).known hmem
  apply hnames unit hunit
  rw [hname, Component.toList_label hlength, Component.groupLabel_eq]
  exact ⟨_, rfl⟩

/-- Every class of cycle-mates has its entry. -/
theorem exists_entry (h : Gathered units policy report g c count) {component : Component}
    (hclass : component.IsClass units) : ∃ entry ∈ report.condensed,
      entry.label = component.label ∧ entry.members = component.members := by
  have hmem := h.represents.mem_components_iff.mpr hclass
  rw [← h.condenses.toList_eq, mem_toList_iff_get] at hmem
  obtain ⟨i, rfl⟩ := hmem
  obtain rfl := h.report_eq
  exact ⟨_, Report.mem_condensedEntries.mpr ⟨i, rfl⟩, rfl, rfl⟩

end Gathered

/-- The labels of a condensed list are distinct exactly if no single file is named like the
label of a group.  Every label that an entry depends on then stands for exactly one entry. -/
theorem labels_distinct_iff {policy : SelfLoopPolicy} {report : Report}
    (hreport : analyze units policy = .ok report) :
    ((report.condensed.map (·.label)).Nodup ↔ ¬ Report.LabelClash report.condensed) ∧
      (¬ Report.LabelClash report.condensed →
        ∀ entry ∈ report.condensed, ∀ label ∈ entry.dependsOn,
          ∃! other, other ∈ report.condensed ∧ other.label = label) := by
  obtain ⟨g, c, count, h⟩ := exists_gathered hreport
  refine ⟨h.nodup_labels_iff, fun hclash entry hentry label hlabel => ?_⟩
  have hnodup := h.nodup_labels_iff.mpr hclash
  obtain rfl := h.report_eq
  obtain ⟨other, hother, hsame⟩ := Report.exists_of_mem_dependsOn hentry hlabel
  refine ⟨other, ⟨hother, hsame⟩, fun another hanother => ?_⟩
  exact List.inj_on_of_nodup_map hnodup hanother.1 hother (hanother.2.trans hsame.symm)

/-- For the ring and its including file all labels are distinct. -/
theorem labels_distinct_iff_ring : ∃ report, analyze Plan.ring .ignore = .ok report ∧
    ¬ Report.LabelClash report.condensed ∧ (report.condensed.map (·.label)).Nodup := by
  obtain ⟨report, hreport⟩ := exists_analyze_of_known Plan.ring .ignore (by decide)
  obtain ⟨g, c, count, h⟩ := exists_gathered hreport
  have hclash : ¬ Report.LabelClash report.condensed :=
    h.not_labelClash_of_prefix (by decide)
  exact ⟨report, hreport, hclash, (labels_distinct_iff hreport).1.mpr hclash⟩

/-- A group of two files and a file named like its label. -/
def namedLikeGroup : List SourceUnit :=
  [⟨"SCC[\"a\",\"b\"]", []⟩, ⟨"a", ["b"]⟩, ⟨"b", ["a"]⟩]

theorem isClass_namedLikeGroup : (⟨["a", "b"], false⟩ : Component).IsClass namedLikeGroup := by
  have hforth : Includes namedLikeGroup "a" "b" := by decide
  have hback : Includes namedLikeGroup "b" "a" := by decide
  refine Component.isClass_of_closed (by simp) (by decide) (by decide) ?_ (by decide) (by simp)
  simp only [List.forall_mem_cons, List.not_mem_nil, false_imp_iff, implies_true, and_true]
  exact ⟨⟨.refl, .single hforth⟩, .single hback, .refl⟩

theorem isClass_namedLikeGroup_single :
    (⟨["SCC[\"a\",\"b\"]"], false⟩ : Component).IsClass namedLikeGroup := by
  refine Component.isClass_of_closed (by simp) (by decide) (by decide) ?_ (by decide) ?_
  · simp only [List.forall_mem_cons, List.not_mem_nil, false_imp_iff, implies_true, and_true]
    exact .refl
  · simp only [Bool.false_eq_true, List.cons.injEq, and_true, exists_eq_left', false_iff]
    decide

/-- The group of two files and the single file have one label. -/
theorem labels_not_distinct : ∃ report, analyze namedLikeGroup .ignore = .ok report ∧
    (∃ group ∈ report.condensed, ∃ single ∈ report.condensed,
      group.members = ["a", "b"] ∧ single.members = ["SCC[\"a\",\"b\"]"] ∧
      group.label = single.label) ∧
    ¬ (report.condensed.map (·.label)).Nodup := by
  obtain ⟨report, hreport⟩ := exists_analyze_of_known namedLikeGroup .ignore (by decide)
  obtain ⟨g, c, count, h⟩ := exists_gathered hreport
  obtain ⟨group, hgroup, hlabel, hmembers⟩ := h.exists_entry isClass_namedLikeGroup
  obtain ⟨single, hsingle, hname, hfile⟩ := h.exists_entry isClass_namedLikeGroup_single
  have hshared : group.label = "SCC[\"a\",\"b\"]" := hlabel.trans (by decide)
  refine ⟨report, hreport, ⟨group, hgroup, single, hsingle, hmembers, hfile, ?_⟩, ?_⟩
  · exact hshared.trans (hname.trans (by decide)).symm
  · rw [h.nodup_labels_iff, not_not]
    exact ⟨group, hgroup, single, hsingle, by rw [hmembers]; decide, by rw [hshared, hfile]⟩

end IncludeGraph
