import PatternAlgebra.Proofs.Analysis.Regrouping
import PatternAlgebra.Proofs.Sequence.Unmerging
/-!
# Repetitions written in different ways

The same repetitions can be asked for in several ways: with a star or as at least zero, with a
question mark or as a choice between the base and the empty text, with one count or with the same
count twice, with a count or as so many copies in a row.  The analyses of these are computed along
different paths, and they agree.

For the copies in a row this says that one product, clamped once, does what as many sums do, each of
them clamped: what the sums lose on the way, the product loses at the end.
-/

namespace PatternAlgebra

namespace Quantifier

/-- At least zero repetitions are any number of them. -/
theorem analysis_atLeastZero (base : Analysis) :
    (range 0 none).analysis base = anyTimes.analysis base := by
  apply Analysis.ext_facts
  · exact ite_self none
  · rfl
  · rfl

/-- Leaving the base out is matching the empty text instead. -/
theorem analysis_optional (base : Analysis) :
    optional.analysis base = Analysis.alternation [base, .fixed 0] := by
  apply Analysis.ext_facts
  · show base.boundedLength = maxBounds (maxBounds (some 0) base.boundedLength) (some 0)
    cases base.boundedLength with
    | none => rfl
    | some n =>
        show some n = some (max (max 0 n) 0)
        rw [Nat.max_zero, Nat.zero_max]
  · rfl
  · show true = [base, Analysis.fixed 0].any (·.possiblyZeroLength)
    simp [Analysis.fixed]

/-- From so many to as many repetitions are exactly so many. -/
theorem analysis_range_self {count : Nat} (hpos : 1 ≤ count) (base : Analysis) :
    (range count (some count)).analysis base = (exactly count).analysis base := by
  have hzero : (count == 0) = false := by simp; omega
  apply Analysis.ext_facts
  · rfl
  · show (count == 0 || base.repetitionInvalidatesBounds) = base.repetitionInvalidatesBounds
    rw [hzero, Bool.false_or]
  · rfl

/-- One product is a row of sums, the ceiling included. -/
theorem mulBound_eq_boundedLength_replicate {count : Nat} (hpos : 1 ≤ count) (base : Analysis) :
    mulBound base.boundedLength count
      = (Analysis.concatenation (List.replicate count base)).boundedLength := by
  ext n
  have hcopies : (∀ part ∈ List.replicate count base, part.boundedLength.isSome = true) ↔
      base.boundedLength.isSome = true := by
    constructor
    · exact fun h => h base (List.mem_replicate.mpr ⟨by omega, rfl⟩)
    · intro h part hpart
      rw [List.eq_of_mem_replicate hpart]
      exact h
  rw [mulBound_eq_some_iff, Analysis.boundedLength_concatenation_iff_sum, hcopies,
    List.map_replicate, List.sum_replicate_nat]
  cases base.boundedLength with
  | none => simp
  | some b => simp [Nat.mul_comm]

/-- A base that may be repeated safely is repeated like so many copies of it in a row. -/
theorem analysis_exactly_eq_concatenation {count : Nat} (hpos : 1 ≤ count) {base : Analysis}
    (hsafe : base.repetitionInvalidatesBounds = false) :
    (exactly count).analysis base = Analysis.concatenation (List.replicate count base) := by
  have hne : count ≠ 0 := by omega
  apply Analysis.ext_facts
  · rw [← mulBound_eq_boundedLength_replicate hpos]
    show (if base.repetitionInvalidatesBounds then none else _) = _
    rw [hsafe, if_neg Bool.false_ne_true]
  · rw [Analysis.repetitionInvalidatesBounds_concatenation, List.any_replicate, if_neg hne]
    rfl
  · rw [Analysis.possiblyZeroLength_concatenation, List.all_replicate, if_neg hne]
    show (count == 0 || base.possiblyZeroLength) = base.possiblyZeroLength
    simp [hne]

end Quantifier

theorem Quantified.apply_of_withinLimits (base : Quantifiable) (quantifier : Quantifier)
    (mode : Mode) (h : quantifier.WithinLimits) :
    apply base quantifier mode = .ok (build base quantifier mode) := by
  rw [apply, Quantifier.check_eq_ok_iff.mpr h]
  rfl

/-- What can be quantified is one alternative. -/
theorem Expr.alternatives_of_isQuantifiable {e : Expr} (h : e.isQuantifiable = true) :
    e.alternatives = [e] := by
  cases e with
  | alternation alternatives profile => exact nomatch h
  | _ => rfl

/-- A choice between a base and the empty text has the analysis of an optional base. -/
theorem Alternation.analysis_pair_empty (base : Quantifiable) :
    (pair base.toSequenceable.toAlternative
        (Sequenceable.ofLiteral "").toAlternative).toExpr.analysis
      = Analysis.alternation [base.expr.analysis, .fixed 0] := by
  have hbase : base.toSequenceable.toAlternative.expr.alternatives = [base.expr] :=
    Expr.alternatives_of_isQuantifiable base.allowed
  show (Profile.alternation (([_, _].flatMap fun a : Alternative => a.expr.alternatives).map
    Expr.profile)).analysis = _
  rw [List.flatMap_cons, List.flatMap_singleton, hbase]
  rfl

/-- As many copies as a count of at least two become a sequence with the analysis of a row. -/
theorem Sequence.ofList_replicate {base : Quantifiable} (hbase : base.expr.WellBuilt)
    {count : Nat} (hcount : 2 ≤ count) :
    ∃ row : Sequence, (ofList (List.replicate count base.toSequenceable)).value = .ok row ∧
      row.toExpr.analysis
        = Analysis.concatenation (List.replicate count base.expr.analysis) := by
  have hlength : 2 ≤ (List.replicate count base.toSequenceable).length := by
    rw [List.length_replicate]
    exact hcount
  have hwellBuilt : ∀ s ∈ List.replicate count base.toSequenceable, s.expr.WellBuilt := by
    intro s hs
    rw [List.eq_of_mem_replicate hs]
    exact hbase
  refine ⟨(ofItems (List.replicate count base.toSequenceable)).value,
    ofList_eq_ok_iff.mpr ⟨hlength, rfl⟩, ?_⟩
  rw [analysis_ofItems hwellBuilt (ne_nil_of_several hlength), List.map_replicate]
  rfl

/-- **Repetitions that mean the same have the same analysis.**  This holds of a star and at least
    zero repetitions; of an optional base and the choice between it and the empty text; and for
    every count from one up to the limit, of that count and a range that starts and ends there, and
    of that count and as many copies in a row, as long as the base may be repeated safely. -/
theorem equal_repetitions_have_equal_analyses {base : Quantifiable}
    (hbase : base.expr.Constructible) (mode mode' : Mode) :
    (∃ star atLeast : Quantified,
      Quantified.apply base .anyTimes mode = .ok star ∧
      Quantified.apply base (.range 0 none) mode' = .ok atLeast ∧
      star.toExpr.analysis = atLeast.toExpr.analysis) ∧
    (∃ maybe : Quantified,
      Quantified.apply base .optional mode = .ok maybe ∧
      maybe.toExpr.analysis
        = (Alternation.pair base.toSequenceable.toAlternative
            (Sequenceable.ofLiteral "").toAlternative).toExpr.analysis) ∧
    (∀ count, 1 ≤ count → count ≤ maxRepetitions → ∃ exact between : Quantified,
      Quantified.apply base (.exactly count) mode = .ok exact ∧
      Quantified.apply base (.range count (some count)) mode' = .ok between ∧
      exact.toExpr.analysis = between.toExpr.analysis ∧
      (base.expr.analysis.repetitionInvalidatesBounds = false →
        exact.toExpr.analysis
          = Analysis.concatenation (List.replicate count base.expr.analysis) ∧
        (2 ≤ count → ∃ row : Sequence,
          (Sequence.ofList (List.replicate count base.toSequenceable)).value = .ok row ∧
          exact.toExpr.analysis = row.toExpr.analysis))) := by
  refine ⟨?_, ?_, ?_⟩
  · refine ⟨_, _, Quantified.apply_of_withinLimits base .anyTimes mode trivial,
      Quantified.apply_of_withinLimits base (.range 0 none) mode' (Nat.zero_le _), ?_⟩
    exact (Quantifier.analysis_atLeastZero base.expr.analysis).symm
  · refine ⟨_, Quantified.apply_of_withinLimits base .optional mode trivial, ?_⟩
    rw [Alternation.analysis_pair_empty]
    exact Quantifier.analysis_optional base.expr.analysis
  · intro count hpos hlimit
    refine ⟨_, _, Quantified.apply_of_withinLimits base (.exactly count) mode hlimit,
      Quantified.apply_of_withinLimits base (.range count (some count)) mode'
        ⟨hlimit, hlimit, Nat.le_refl count⟩, ?_, ?_⟩
    · exact (Quantifier.analysis_range_self hpos base.expr.analysis).symm
    · intro hsafe
      have hrow := Quantifier.analysis_exactly_eq_concatenation hpos hsafe
      refine ⟨hrow, fun hseveral => ?_⟩
      obtain ⟨row, hmade, hanalysis⟩ := Sequence.ofList_replicate hbase.wellBuilt hseveral
      exact ⟨row, hmade, hrow.trans hanalysis.symm⟩

/-- The first count at which a single character is too long to keep track of. -/
theorem equal_repetitions_have_equal_analyses_at_the_ceiling :
    let base : Quantifiable := .ofChar 'a'
    let count := maxBoundedLength + 1
    ∃ (exact : Quantified) (row : Sequence),
      Quantified.apply base (.exactly count) .greedy = .ok exact ∧
      (Sequence.ofList (List.replicate count base.toSequenceable)).value = .ok row ∧
      exact.toExpr.analysis.boundedLength = none ∧
      row.toExpr.analysis.boundedLength = none := by
  intro base count
  have hbase : base.expr.Constructible :=
    .unary .toExpr (.leaf (.charLiteral 'a') rfl) rfl
  obtain ⟨-, -, hcounts⟩ := equal_repetitions_have_equal_analyses hbase .greedy .possessive
  obtain ⟨exact, between, hexact, -, -, hcopies⟩ := hcounts count (by decide) (by decide)
  obtain ⟨-, hrow⟩ := hcopies rfl
  obtain ⟨row, hmade, hsame⟩ := hrow (by decide)
  have hbound : exact.toExpr.analysis.boundedLength = none := by
    obtain ⟨-, rfl⟩ := Quantified.apply_eq_ok hexact
    rfl
  exact ⟨exact, row, hexact, hmade, hbound, hsame ▸ hbound⟩

end PatternAlgebra
