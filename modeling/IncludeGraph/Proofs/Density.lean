import IncludeGraph.Proofs.Analysis

/-!
# The density of a graph

The density comes out of four rounded steps.  A number of the format is its own rounding, and the
natural numbers below `2 ^ 53` are numbers of the format.  As long as the counts keep below that
bound, all steps but the division are therefore exact, and the density is the ratio of the counts
rounded once.
-/

namespace IncludeGraph

namespace Binary64

/-! ## Exact steps -/

theorem unitsPerOne_pos : 0 < unitsPerOne := by decide +kernel

theorem roundDiv_one (num : Nat) : roundDiv num 1 = num := by
  simp [roundDiv, Nat.mod_one]

theorem roundDiv_mul_right {factor : Nat} (hpos : 0 < factor) (num den : Nat) :
    roundDiv (num * factor) (den * factor) = roundDiv num den := by
  have hless : den * factor < 2 * (num % den * factor) ↔ den < 2 * (num % den) := by
    rw [← Nat.mul_assoc]
    exact Nat.mul_lt_mul_right hpos
  have heq : 2 * (num % den * factor) = den * factor ↔ 2 * (num % den) = den := by
    rw [← Nat.mul_assoc]
    exact Nat.mul_left_inj (Nat.ne_of_gt hpos)
  unfold roundDiv
  simp only [Nat.mul_div_mul_right _ _ hpos, Nat.mul_mod_mul_right, hless, heq]

theorem ofUnits?_mul_right {factor : Nat} (hpos : 0 < factor) (negative : Bool) (num den : Nat) :
    ofUnits? negative (num * factor) (den * factor) = ofUnits? negative num den := by
  unfold ofUnits?
  simp only [Nat.mul_div_mul_right _ _ hpos, Nat.mul_right_comm den factor,
    roundDiv_mul_right hpos]

theorem log2_mul_two_pow {n : Nat} (hn : n ≠ 0) (scale : Nat) :
    (n * 2 ^ scale).log2 = n.log2 + scale := by
  have hproduct : n * 2 ^ scale ≠ 0 := Nat.mul_ne_zero hn (Nat.ne_of_gt (Nat.two_pow_pos scale))
  rw [Nat.log2_eq_iff hproduct, Nat.pow_add, Nat.add_right_comm, Nat.pow_add]
  exact ⟨Nat.mul_le_mul_right _ (Nat.log2_self_le hn),
    Nat.mul_lt_mul_of_pos_right Nat.lt_log2_self (Nat.two_pow_pos scale)⟩

/-- The scale that rounding chooses for the units of a number is that of the number. -/
theorem scale_units (x : Binary64) :
    (if x.units = 0 then 0 else x.units.log2 - 52) = x.scale := by
  obtain ⟨hbound, _, hnormal⟩ := x.canonical
  rw [Nat.pow_eq] at hbound hnormal
  rw [units, Nat.pow_eq]
  by_cases hzero : x.significand = 0
  · rw [hzero, Nat.zero_mul, if_pos rfl]
    exact (hnormal.resolve_left (by omega)).symm
  · have hunits : x.significand * 2 ^ x.scale ≠ 0 :=
      Nat.mul_ne_zero hzero (Nat.ne_of_gt (Nat.two_pow_pos x.scale))
    have hless : x.significand.log2 < 53 := (Nat.log2_lt hzero).mpr hbound
    rw [if_neg hunits, log2_mul_two_pow hzero]
    rcases hnormal with hnormal | hscale
    · have hle : 52 ≤ x.significand.log2 := (Nat.le_log2 hzero).mpr hnormal
      omega
    · omega

/-- A number is its own rounding. -/
theorem ofUnits?_units (x : Binary64) : ofUnits? x.negative x.units 1 = some x := by
  have hpos : 0 < Nat.pow 2 x.scale := Nat.two_pow_pos x.scale
  have hsignificand : roundDiv x.units (1 * Nat.pow 2 x.scale) = x.significand := by
    rw [units, roundDiv_mul_right hpos, roundDiv_one]
  have hbound : x.significand ≠ Nat.pow 2 53 := Nat.ne_of_lt x.canonical.1
  unfold ofUnits?
  simp only [Nat.div_one, scale_units, hsignificand, if_neg hbound]
  exact dif_pos x.canonical

/-! ## Natural numbers -/

/-- The number is a natural number. -/
structure IsNat (x : Binary64) (n : Nat) : Prop where
  negative_eq : x.negative = false
  units_eq : x.units = n * unitsPerOne

theorem isNat_one : one.IsNat 1 where
  negative_eq := rfl
  units_eq := by decide +kernel

/-- A natural number of at most 53 bits is a number of the format: shifted so that it has all of
them, it is a significand. -/
theorem exists_isNat {n : Nat} (hn : n < 2 ^ 53) : ∃ x : Binary64, x.IsNat n := by
  by_cases hzero : n = 0
  · subst hzero
    exact ⟨zero, rfl, by decide +kernel⟩
  · have hlog : n.log2 < 53 := (Nat.log2_lt hzero).mpr hn
    have hshifted : n * 2 ^ (52 - n.log2) ≠ 0 :=
      Nat.mul_ne_zero hzero (Nat.ne_of_gt (Nat.two_pow_pos _))
    have hsize : (n * 2 ^ (52 - n.log2)).log2 = 52 := by
      rw [log2_mul_two_pow hzero]
      omega
    obtain ⟨hlower, hupper⟩ := (Nat.log2_eq_iff hshifted).mp hsize
    have hunits : unitsPerOne = 2 ^ (52 - n.log2) * 2 ^ (1022 + n.log2) := by
      have hexponent : 1074 = 52 - n.log2 + (1022 + n.log2) := by omega
      unfold unitsPerOne
      rw [hexponent]
      exact Nat.pow_add 2 _ _
    refine ⟨⟨false, n * 2 ^ (52 - n.log2), 1022 + n.log2, hupper, by omega, .inl hlower⟩, rfl, ?_⟩
    rw [hunits, ← Nat.mul_assoc]
    rfl

namespace IsNat

variable {x y z : Binary64} {m n : Nat}

theorem ofUnits?_eq (h : x.IsNat n) {den : Nat} (hpos : 0 < den) :
    ofUnits? false (n * unitsPerOne * den) den = some x := by
  have hrounded := ofUnits?_mul_right hpos false (n * unitsPerOne) 1
  rw [Nat.one_mul] at hrounded
  rw [hrounded, ← h.units_eq, ← h.negative_eq]
  exact ofUnits?_units x

theorem ofNat?_eq (h : x.IsNat n) : ofNat? n = some x := by
  rw [ofNat?, ofRatio?, ← h.units_eq, ← h.negative_eq]
  exact ofUnits?_units x

theorem sub?_eq (hx : x.IsNat m) (hy : y.IsNat n) (hz : z.IsNat (m - n)) (hle : n ≤ m) :
    x.sub? y = some z := by
  have hdifference : x.signedUnits - y.signedUnits = (z.units : Int) := by
    have hunits : n * unitsPerOne ≤ m * unitsPerOne := Nat.mul_le_mul_right _ hle
    simp only [signedUnits, hx.negative_eq, hy.negative_eq, hx.units_eq, hy.units_eq, hz.units_eq,
      Nat.sub_mul, Bool.false_eq_true, if_false]
    omega
  have hsign : ¬ ((z.units : Int) < 0 ∨ ((z.units : Int) = 0 ∧ x.negative ∧ ¬ y.negative)) := by
    simp only [hx.negative_eq, Bool.false_eq_true, false_and, and_false, or_false]
    exact Int.not_lt.mpr (Int.natCast_nonneg _)
  unfold sub?
  simp only [hdifference, hsign, decide_false, Int.natAbs_natCast]
  rw [← hz.negative_eq]
  exact ofUnits?_units z

theorem mul?_eq (hx : x.IsNat m) (hy : y.IsNat n) (hz : z.IsNat (m * n)) :
    x.mul? y = some z := by
  rw [mul?, hx.negative_eq, hy.negative_eq, hx.units_eq, hy.units_eq, Nat.mul_mul_mul_comm,
    ← Nat.mul_assoc]
  exact hz.ofUnits?_eq unitsPerOne_pos

/-- Only the quotient of two natural numbers has to be rounded. -/
theorem div?_eq (hx : x.IsNat m) (hy : y.IsNat n) : x.div? y = ofRatio? false m n := by
  rw [div?, hx.negative_eq, hy.negative_eq, hx.units_eq, hy.units_eq]
  exact ofUnits?_mul_right unitsPerOne_pos false (m * unitsPerOne) n

end IsNat

end Binary64

/-! ## The ratio of the counts -/

namespace Stats

open Binary64

variable {files edges : Nat}

theorem bind_eq_of_eq_some {α β : Type} {first : Option α} {value : α} {next : α → Option β}
    {result : Option β} (hfirst : first = some value) (hnext : next value = result) :
    first >>= next = result := by
  rw [hfirst]
  exact hnext

/-- As long as the counts fit into 53 bits, the density is their ratio, rounded once. -/
theorem densityOf_eq_ratio (hfiles : 2 ≤ files) (hpairs : files * (files - 1) < 2 ^ 53)
    (hedges : edges < 2 ^ 53) : densityOf files edges = ratio edges (files * (files - 1)) := by
  have hless : files < 2 ^ 53 := by
    calc files = files * 1 := (Nat.mul_one files).symm
      _ ≤ files * (files - 1) := Nat.mul_le_mul_left _ (by omega)
      _ < 2 ^ 53 := hpairs
  obtain ⟨count, hcount⟩ := exists_isNat hless
  obtain ⟨others, hothers⟩ := exists_isNat (Nat.lt_of_le_of_lt (Nat.sub_le files 1) hless)
  obtain ⟨pairs, hproduct⟩ := exists_isNat hpairs
  obtain ⟨includes, hincludes⟩ := exists_isNat hedges
  have hdensity : includesPerPair? files edges = ofRatio? false edges (files * (files - 1)) := by
    unfold includesPerPair?
    apply bind_eq_of_eq_some hcount.ofNat?_eq
    apply bind_eq_of_eq_some (hcount.sub?_eq isNat_one hothers (by omega))
    apply bind_eq_of_eq_some (hcount.mul?_eq hothers hproduct)
    apply bind_eq_of_eq_some hincludes.ofNat?_eq
    exact hincludes.div?_eq hproduct
  rw [densityOf, if_neg (by omega), hdensity, ratio]

/-- With more pairs than that, the product is rounded, too, and the quotient may be another one. -/
example : densityOf 134217730 1 ≠ ratio 1 (134217730 * 134217729) := by decide +kernel

end Stats

/-- The density in the report of an analysis is the number of includes divided by that of the
ordered pairs of different files, rounded once. -/
theorem Report.density_eq_ratio {units : List SourceUnit} {policy : SelfLoopPolicy}
    {report : Report} (hreport : analyze units policy = .ok report)
    (hfiles : 2 ≤ report.stats.fileCount)
    (hpairs : report.stats.fileCount * (report.stats.fileCount - 1) < 2 ^ 53)
    (hedges : report.stats.edgeCount < 2 ^ 53) :
    report.stats.density =
      .ratio report.stats.edgeCount (report.stats.fileCount * (report.stats.fileCount - 1)) := by
  obtain ⟨g, c, count, h⟩ := exists_gathered hreport
  obtain rfl := h.report_eq
  exact Stats.densityOf_eq_ratio hfiles hpairs hedges

end IncludeGraph
