import IncludeGraph.Proofs.DecimalText
import IncludeGraph.Proofs.Json.RoundTrip
import IncludeGraph.Proofs.Neighbours
import IncludeGraph.Report.Json

/-!
# Reports read back

A report is read back from its text.  Each part of a report is written as a value whose numbers
are literals, and reading that value gives the part; the text of a value is read back as the
value.
-/

namespace IncludeGraph

namespace Json

/-! ## Lists and mappings -/

section Lists

variable {ι α β : Type}

/-- A list is read if its items are. -/
theorem mapM_map_eq_some {encode : ι → α} {decode : α → Option β} {result : ι → β}
    {values : List ι} (h : ∀ value ∈ values, decode (encode value) = some (result value)) :
    (values.map encode).mapM decode = some (values.map result) := by
  induction values with
  | nil => rfl
  | cons value values ih =>
      have hvalue := h value List.mem_cons_self
      have hvalues := ih fun other hother => h other (List.mem_cons_of_mem _ hother)
      simp [hvalue, hvalues]

theorem mapM_map_eq_self {encode : ι → α} {decode : α → Option ι} {values : List ι}
    (h : ∀ value ∈ values, decode (encode value) = some value) :
    (values.map encode).mapM decode = some values := by
  have hread : (values.map encode).mapM decode = some (values.map id) := mapM_map_eq_some h
  rwa [List.map_id] at hread

end Lists

theorem text?_ofText (text : String) : (ofText text).text? = some text := rfl

theorem texts?_ofTexts (texts : List String) : (ofTexts texts).texts? = some texts :=
  mapM_map_eq_self fun _ _ => rfl

theorem mapM_texts?_map_ofTexts (lists : List (List String)) :
    (lists.map ofTexts).mapM texts? = some lists :=
  mapM_map_eq_self fun texts _ => texts?_ofTexts texts

theorem nat?_ofNat {n : Nat} (hn : n ≤ maxCount) : (ofNat n).nat? = some n :=
  count?_toString hn

theorem members?_ofMembers (members : List (String × Json)) :
    (ofMembers members).members? = some members :=
  mapM_map_eq_self fun _ _ => rfl

/-- A key that occurs once is found with its value. -/
theorem only?_of_mem {members : List (String × Json)} (hnodup : (members.map Prod.fst).Nodup)
    {key : String} {value : Json} (hmem : (key, value) ∈ members) :
    only? members key = some value := by
  have hfilter : members.filter (·.1 == key) = [(key, value)] := by
    induction members with
    | nil => cases hmem
    | cons member members ih =>
        rw [List.map_cons, List.nodup_cons] at hnodup
        rcases List.mem_cons.mp hmem with rfl | hmem
        · have hother : members.filter (·.1 == key) = [] := by
            rw [List.filter_eq_nil_iff]
            intro other hother heq
            exact hnodup.1 (List.mem_map.mpr ⟨other, hother, eq_of_beq heq⟩)
          simp [hother]
        · have hne : member.1 ≠ key := by
            rintro rfl
            exact hnodup.1 (List.mem_map.mpr ⟨_, hmem, rfl⟩)
          simp [hne, ih hnodup.2 hmem]
  rw [only?, hfilter]

/-- An object with the given keys is read as the values of its members. -/
theorem record?_ofMembers {keys : List String} {values : List Json} (hnodup : keys.Nodup)
    (hlength : keys.length = values.length) :
    (ofMembers (keys.zip values)).record? keys = some values := by
  have hkeys : (keys.zip values).map Prod.fst = keys := List.map_fst_zip (Nat.le_of_eq hlength)
  have hvalues : (keys.zip values).map Prod.snd = values :=
    List.map_snd_zip (Nat.le_of_eq hlength.symm)
  have hread : ((keys.zip values).map Prod.fst).mapM (only? (keys.zip values)) =
      some ((keys.zip values).map Prod.snd) :=
    mapM_map_eq_some fun _ hpair => only?_of_mem (by rwa [hkeys]) hpair
  rw [hkeys, hvalues] at hread
  have hmembers := members?_ofMembers (keys.zip values)
  rw [ofMembers] at hmembers ⊢
  rw [record?, hmembers]
  · exact hread
  · simp

theorem keepLast_eq_self {β : Type} {entries : List (String × β)}
    (hsorted : entries.Pairwise (·.1 < ·.1)) : keepLast entries = entries := by
  induction entries with
  | nil => rfl
  | cons x entries ih =>
      rw [List.pairwise_cons] at hsorted
      cases entries with
      | nil => rfl
      | cons y rest =>
          have hne : x.1 ≠ y.1 := ne_of_lt (hsorted.1 y List.mem_cons_self)
          simp [keepLast, hne, ih hsorted.2]

/-- Entries that are ordered by key already are left as they are. -/
theorem sortEntries_eq_self {β : Type} {entries : List (String × β)}
    (hsorted : entries.Pairwise (·.1 < ·.1)) : sortEntries entries = entries := by
  have hle : entries.Pairwise fun a b => decide (a.1 ≤ b.1) = true :=
    hsorted.imp fun h => decide_eq_true h.le
  rw [sortEntries, List.mergeSort_of_pairwise hle, keepLast_eq_self hsorted]

theorem mem_of_mem_keepLast {β : Type} {entry : String × β} {entries : List (String × β)}
    (h : entry ∈ keepLast entries) : entry ∈ entries := by
  induction entries with
  | nil => exact h
  | cons x entries ih =>
      cases entries with
      | nil => exact h
      | cons y rest =>
          rw [keepLast] at h
          split_ifs at h with hkey
          · exact List.mem_cons_of_mem x (ih h)
          · rcases List.mem_cons.mp h with rfl | h
            · exact List.mem_cons_self
            · exact List.mem_cons_of_mem x (ih h)

/-- Of entries that are ordered by key, those that are kept have different keys. -/
theorem pairwise_keepLast {β : Type} {entries : List (String × β)}
    (hsorted : entries.Pairwise (·.1 ≤ ·.1)) : (keepLast entries).Pairwise (·.1 < ·.1) := by
  induction entries with
  | nil => exact .nil
  | cons x entries ih =>
      cases entries with
      | nil => exact List.pairwise_singleton _ x
      | cons y rest =>
          obtain ⟨hfirst, hrest⟩ := List.pairwise_cons.mp hsorted
          rw [keepLast]
          split_ifs with hkey
          · exact ih hrest
          · have hne : x.1 ≠ y.1 := by simpa using hkey
            have hlt : x.1 < y.1 := lt_of_le_of_ne (hfirst y List.mem_cons_self) hne
            refine List.pairwise_cons.mpr ⟨fun z hz => ?_, ih hrest⟩
            rcases List.mem_cons.mp (mem_of_mem_keepLast hz) with rfl | hz
            · exact hlt
            · exact hlt.trans_le ((List.pairwise_cons.mp hrest).1 z hz)

theorem pairwise_sortEntries {β : Type} (entries : List (String × β)) :
    (sortEntries entries).Pairwise (·.1 < ·.1) := by
  apply pairwise_keepLast
  have hsorted : (entries.mergeSort fun a b => decide (a.1 ≤ b.1)).Pairwise
      fun a b => decide (a.1 ≤ b.1) = true :=
    List.pairwise_mergeSort
      (fun a b c hab hbc => decide_eq_true ((of_decide_eq_true hab).trans (of_decide_eq_true hbc)))
      (fun a b => by simpa using le_total a.1 b.1) entries
  exact hsorted.imp of_decide_eq_true

theorem entries?_ofEntries {entries : List (String × List String)}
    (hsorted : entries.Pairwise (·.1 < ·.1)) : (ofEntries entries).entries? = some entries := by
  have hread : (entries.map fun entry => (entry.1, ofTexts entry.2)).mapM
      (fun member => member.2.texts?.map (member.1, ·)) = some entries :=
    mapM_map_eq_self fun entry _ => by simp [texts?_ofTexts]
  rw [entries?, ofEntries, members?_ofMembers]
  change (entries.map fun entry => (entry.1, ofTexts entry.2)).mapM
    (fun member => member.2.texts?.map (member.1, ·)) >>= (fun read => some (sortEntries read)) =
      some entries
  rw [hread]
  exact congrArg some (sortEntries_eq_self hsorted)

/-- Whatever order its members have, an object is read as ordered entries. -/
theorem pairwise_of_entries? {value : Json} {entries : List (String × List String)}
    (h : value.entries? = some entries) : entries.Pairwise (·.1 < ·.1) := by
  simp only [entries?, Option.bind_eq_bind, Option.bind_eq_some_iff] at h
  obtain ⟨_, _, _, _, h⟩ := h
  cases h
  exact pairwise_sortEntries _

theorem le_maxCount_of_nat? {value : Json} {n : Nat} (h : value.nat? = some n) : n ≤ maxCount := by
  cases value <;> simp only [nat?, reduceCtorEq] at h
  dsimp only [count?] at h
  split_ifs at h with hdigits
  cases h
  exact hdigits.2

/-! ## Numbers of values -/

theorem hasNumbers_ofNat (n : Nat) : HasNumbers (ofNat n) :=
  .number (isNumber_toString n)

theorem hasNumbers_map {α : Type} {encode : α → Json} {values : List α}
    (h : ∀ value, HasNumbers (encode value)) : HasNumbers (array (values.map encode)) := by
  refine .array fun item hitem => ?_
  obtain ⟨value, _, rfl⟩ := List.mem_map.mp hitem
  exact h value

theorem hasNumbers_ofText (text : String) : HasNumbers (ofText text) :=
  .string _

theorem hasNumbers_ofTexts (texts : List String) : HasNumbers (ofTexts texts) :=
  hasNumbers_map hasNumbers_ofText

theorem hasNumbers_ofMembers {members : List (String × Json)}
    (h : ∀ member ∈ members, HasNumbers member.2) : HasNumbers (ofMembers members) := by
  refine .object fun member hmember => ?_
  obtain ⟨source, hsource, rfl⟩ := List.mem_map.mp hmember
  exact h source hsource

/-- An object with the given keys has numbers if its values have. -/
theorem hasNumbers_ofMembers_zip {keys : List String} {values : List Json}
    (h : ∀ value ∈ values, HasNumbers value) : HasNumbers (ofMembers (keys.zip values)) :=
  hasNumbers_ofMembers fun _ hmember => h _ (List.of_mem_zip hmember).2

theorem hasNumbers_ofEntries (entries : List (String × List String)) :
    HasNumbers (ofEntries entries) := by
  refine hasNumbers_ofMembers fun member hmember => ?_
  obtain ⟨entry, _, rfl⟩ := List.mem_map.mp hmember
  exact hasNumbers_ofTexts entry.2

end Json

/-! ## The parts of a report -/

theorem Plan.ofJson?_toJson (p : Plan) : Plan.ofJson? p.toJson = some p := by
  rw [ofJson?, toJson]
  dsimp only [Option.bind_eq_bind, Option.bind_some, Json.items?]
  rw [Json.mapM_texts?_map_ofTexts]
  rfl

theorem CondensedEntry.ofJson?_toJson (e : CondensedEntry) : ofJson? e.toJson = some e := by
  rw [ofJson?, toJson, Json.record?_ofMembers (by decide) rfl]
  dsimp only [Option.bind_eq_bind, Option.bind_some]
  rw [Json.text?_ofText, Json.texts?_ofTexts, Json.texts?_ofTexts]
  rfl

def Stats.counters (s : Stats) : List Nat :=
  [s.fileCount, s.edgeCount, s.componentCount, s.cycleCount, s.selfIncludeCount,
   s.weaklyConnectedComponentCount, s.isolatedFileCount, s.maxInDegree, s.maxOutDegree,
   s.condensedEdgeCount]

theorem Stats.ofJson?_toJson {s : Stats} (hcounters : ∀ n ∈ s.counters, n ≤ Json.maxCount)
    (hdensity : Json.binary64? s.density.text = some s.density) : ofJson? s.toJson = some s := by
  rw [ofJson?, toJson, Json.record?_ofMembers (by decide) rfl]
  have hread : ∀ n ∈ s.counters, (Json.ofNat n).nat? = some n :=
    fun n hn => Json.nat?_ofNat (hcounters n hn)
  simp only [counters, List.forall_mem_cons] at hread
  obtain ⟨hfiles, hedges, hcomponents, hcycles, hselfIncludes, hweak, hisolated, hmaxIn, hmaxOut,
    hcondensedEdges, _⟩ := hread
  dsimp only [Option.bind_eq_bind, Option.bind_some, Json.float?]
  rw [hfiles, hedges, hdensity, hcomponents, hcycles, hselfIncludes, hweak, hisolated, hmaxIn,
    hmaxOut, hcondensedEdges]
  rfl

theorem Stats.counters_le_of_ofJson? {value : Json} {s : Stats} (h : ofJson? value = some s) :
    ∀ n ∈ s.counters, n ≤ Json.maxCount := by
  rw [ofJson?] at h
  obtain ⟨values, _, h⟩ := Option.bind_eq_some_iff.mp h
  split at h
  · obtain ⟨_, hfiles, h⟩ := Option.bind_eq_some_iff.mp h
    obtain ⟨_, hedges, h⟩ := Option.bind_eq_some_iff.mp h
    obtain ⟨_, _, h⟩ := Option.bind_eq_some_iff.mp h
    obtain ⟨_, hcomponents, h⟩ := Option.bind_eq_some_iff.mp h
    obtain ⟨_, hcycles, h⟩ := Option.bind_eq_some_iff.mp h
    obtain ⟨_, hselfIncludes, h⟩ := Option.bind_eq_some_iff.mp h
    obtain ⟨_, hweak, h⟩ := Option.bind_eq_some_iff.mp h
    obtain ⟨_, hisolated, h⟩ := Option.bind_eq_some_iff.mp h
    obtain ⟨_, hmaxIn, h⟩ := Option.bind_eq_some_iff.mp h
    obtain ⟨_, hmaxOut, h⟩ := Option.bind_eq_some_iff.mp h
    obtain ⟨_, hcondensedEdges, h⟩ := Option.bind_eq_some_iff.mp h
    cases h
    simp only [counters, List.forall_mem_cons]
    exact ⟨Json.le_maxCount_of_nat? hfiles, Json.le_maxCount_of_nat? hedges,
      Json.le_maxCount_of_nat? hcomponents, Json.le_maxCount_of_nat? hcycles,
      Json.le_maxCount_of_nat? hselfIncludes, Json.le_maxCount_of_nat? hweak,
      Json.le_maxCount_of_nat? hisolated, Json.le_maxCount_of_nat? hmaxIn,
      Json.le_maxCount_of_nat? hmaxOut, Json.le_maxCount_of_nat? hcondensedEdges, by simp⟩
  · cases h

theorem Plan.hasNumbers_toJson (p : Plan) : p.toJson.HasNumbers :=
  Json.hasNumbers_map Json.hasNumbers_ofTexts

theorem CondensedEntry.hasNumbers_toJson (e : CondensedEntry) : e.toJson.HasNumbers := by
  apply Json.hasNumbers_ofMembers_zip
  simp only [List.forall_mem_cons]
  exact ⟨Json.hasNumbers_ofText _, Json.hasNumbers_ofTexts _, Json.hasNumbers_ofTexts _, by simp⟩

theorem Stats.hasNumbers_toJson (s : Stats) : s.toJson.HasNumbers := by
  apply Json.hasNumbers_ofMembers_zip
  simp only [List.forall_mem_cons, Json.hasNumbers_ofNat, true_and]
  exact ⟨.number s.density.isNumber_text, by simp⟩

namespace Report

theorem hasNumbers_toJson (r : Report) : r.toJson.HasNumbers := by
  apply Json.hasNumbers_ofMembers_zip
  simp only [List.forall_mem_cons]
  exact ⟨Json.hasNumbers_ofTexts _, Json.hasNumbers_ofEntries _, Json.hasNumbers_ofEntries _,
    Json.hasNumbers_map Json.hasNumbers_ofTexts, r.plan.hasNumbers_toJson,
    Json.hasNumbers_map CondensedEntry.hasNumbers_toJson, r.stats.hasNumbers_toJson,
    Json.hasNumbers_ofText _, by simp⟩

/-- What a report in memory keeps to: the entries of a mapping stand in the order of their
keys, each key once, and a counter is a number of 64 bits.  The reports of an analysis do
(`held_of_analyze`), and so does every report that is read (`held_of_ofText?`). -/
structure Held (r : Report) : Prop where
  dependencies : r.dependencies.Pairwise (·.1 < ·.1)
  dependents : r.dependents.Pairwise (·.1 < ·.1)
  counters : ∀ n ∈ r.stats.counters, n ≤ Json.maxCount

theorem held_of_analyze {units : List SourceUnit} {policy : SelfLoopPolicy} {r : Report}
    (hreport : analyze units policy = .ok r)
    (hcounters : ∀ n ∈ r.stats.counters, n ≤ Json.maxCount) : r.Held := by
  obtain ⟨g, c, count, hgathered⟩ := exists_gathered hreport
  exact {
    dependencies := List.pairwise_map.mp hgathered.isListing_dependencies.sorted
    dependents := List.pairwise_map.mp hgathered.isListing_dependents.sorted
    counters := hcounters
  }

theorem held_of_ofJson? {value : Json} {r : Report} (h : ofJson? value = some r) : r.Held := by
  rw [ofJson?] at h
  obtain ⟨values, _, h⟩ := Option.bind_eq_some_iff.mp h
  split at h
  · obtain ⟨_, _, h⟩ := Option.bind_eq_some_iff.mp h
    obtain ⟨_, hdependencies, h⟩ := Option.bind_eq_some_iff.mp h
    obtain ⟨_, hdependents, h⟩ := Option.bind_eq_some_iff.mp h
    obtain ⟨_, _, h⟩ := Option.bind_eq_some_iff.mp h
    obtain ⟨_, _, h⟩ := Option.bind_eq_some_iff.mp h
    obtain ⟨_, _, h⟩ := Option.bind_eq_some_iff.mp h
    obtain ⟨_, _, h⟩ := Option.bind_eq_some_iff.mp h
    obtain ⟨_, _, h⟩ := Option.bind_eq_some_iff.mp h
    obtain ⟨_, hstats, h⟩ := Option.bind_eq_some_iff.mp h
    obtain ⟨_, _, h⟩ := Option.bind_eq_some_iff.mp h
    cases h
    exact {
      dependencies := Json.pairwise_of_entries? hdependencies
      dependents := Json.pairwise_of_entries? hdependents
      counters := Stats.counters_le_of_ofJson? hstats
    }
  · cases h

theorem ofJson?_toJson {r : Report} (hr : r.Held)
    (hdensity : Json.binary64? r.stats.density.text = some r.stats.density) :
    ofJson? r.toJson = some r := by
  have hcondensed : (r.condensed.map (·.toJson)).mapM CondensedEntry.ofJson? = some r.condensed :=
    Json.mapM_map_eq_self fun entry _ => entry.ofJson?_toJson
  rw [ofJson?, toJson, Json.record?_ofMembers (by decide) rfl]
  dsimp only [Option.bind_eq_bind, Option.bind_some, Json.items?]
  rw [Json.texts?_ofTexts, Json.entries?_ofEntries hr.dependencies,
    Json.entries?_ofEntries hr.dependents, Json.mapM_texts?_map_ofTexts, Plan.ofJson?_toJson,
    hcondensed, Stats.ofJson?_toJson hr.counters hdensity]
  rfl

theorem held_of_ofText? {text : String} {r : Report} (h : ofText? text = some r) : r.Held := by
  simp only [ofText?, Option.bind_eq_bind, Option.bind_eq_some_iff] at h
  obtain ⟨value, _, h⟩ := h
  exact held_of_ofJson? h

/-- The text of a report is read back as the report, whatever characters its names hold, as
long as the text of the density is read back as the density. -/
theorem ofText?_toText {r : Report} (hr : r.Held)
    (hdensity : Json.binary64? r.stats.density.text = some r.stats.density) :
    ofText? r.toText = some r := by
  rw [ofText?, toText, Json.parse_pretty r.hasNumbers_toJson]
  exact ofJson?_toJson hr hdensity

/-- A source includes one of two headers, and all names hold characters that are escaped. -/
def escapedNames : Report where
  files := ["a\"b.h", "c\\d.h", "é\n\x01.c"]
  dependencies := [("a\"b.h", []), ("c\\d.h", []), ("é\n\x01.c", ["a\"b.h"])]
  dependents := [("a\"b.h", ["é\n\x01.c"]), ("c\\d.h", []), ("é\n\x01.c", [])]
  cycles := []
  plan := ⟨[["a\"b.h", "c\\d.h"], ["é\n\x01.c"]]⟩
  condensed :=
    [⟨"a\"b.h", ["a\"b.h"], []⟩, ⟨"c\\d.h", ["c\\d.h"], []⟩,
     ⟨"é\n\x01.c", ["é\n\x01.c"], ["a\"b.h"]⟩]
  stats := {
    fileCount := 3
    edgeCount := 1
    density := .ratio 1 6
    componentCount := 3
    cycleCount := 0
    selfIncludeCount := 0
    weaklyConnectedComponentCount := 2
    isolatedFileCount := 1
    maxInDegree := 1
    maxOutDegree := 1
    condensedEdgeCount := 1
  }
  fingerprint := "7f"

theorem ofText?_toText_escapedNames : escapedNames.Held ∧
    Json.binary64? escapedNames.stats.density.text = some escapedNames.stats.density ∧
    ofText? escapedNames.toText = some escapedNames := by
  have hheld : escapedNames.Held := ⟨by decide, by decide, by decide⟩
  have hdensity : Json.binary64? escapedNames.stats.density.text =
      some escapedNames.stats.density := by decide +kernel
  exact ⟨hheld, hdensity, ofText?_toText hheld hdensity⟩

end Report

end IncludeGraph
