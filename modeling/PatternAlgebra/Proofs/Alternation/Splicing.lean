import PatternAlgebra.Proofs.Alternation.Bracketing
/-!
# Nested alternations in the analysis

An alternation takes the alternatives of a nested alternation in its place, and its analysis is
computed from what it offers in the end.  That is no different from the analysis of the items as
they were given: a maximum of maxima is a maximum, and the flags of a nested alternation are those
of its alternatives together.
-/

namespace PatternAlgebra

theorem maxBounds_assoc (a b c : Option Nat) :
    maxBounds (maxBounds a b) c = maxBounds a (maxBounds b c) := by
  ext n
  simp only [maxBounds_eq_some_iff]
  constructor
  · rintro ⟨_, k, ⟨i, j, rfl, rfl, rfl⟩, rfl, rfl⟩
    exact ⟨i, max j k, rfl, ⟨j, k, rfl, rfl, rfl⟩, by omega⟩
  · rintro ⟨i, _, rfl, ⟨j, k, rfl, rfl, rfl⟩, rfl⟩
    exact ⟨max i j, k, ⟨i, j, rfl, rfl, rfl⟩, rfl, by omega⟩

theorem zero_maxBounds (a : Option Nat) : maxBounds (some 0) a = a := by
  cases a with
  | none => rfl
  | some n => exact congrArg some (Nat.zero_max n)

theorem maxBounds_zero (a : Option Nat) : maxBounds a (some 0) = a := by
  cases a with
  | none => rfl
  | some n => exact congrArg some (Nat.max_zero n)

namespace Analysis

variable {xs ys xs' ys' : List Analysis}

theorem foldl_maxBounds (start : Option Nat) (alternatives : List Analysis) :
    alternatives.foldl (fun bound a => maxBounds bound a.boundedLength) start
      = maxBounds start (alternation alternatives).boundedLength := by
  induction alternatives generalizing start with
  | nil => exact (maxBounds_zero start).symm
  | cons a alternatives ih =>
      show _ = maxBounds start ((a :: alternatives).foldl _ (some 0))
      rw [List.foldl_cons, List.foldl_cons, ih, ih, zero_maxBounds, maxBounds_assoc]

theorem boundedLength_alternation_append (xs ys : List Analysis) :
    (alternation (xs ++ ys)).boundedLength
      = maxBounds (alternation xs).boundedLength (alternation ys).boundedLength := by
  show (xs ++ ys).foldl _ (some 0) = _
  rw [List.foldl_append, foldl_maxBounds]
  rfl

theorem possiblyZeroLength_alternation_append (xs ys : List Analysis) :
    (alternation (xs ++ ys)).possiblyZeroLength
      = ((alternation xs).possiblyZeroLength || (alternation ys).possiblyZeroLength) :=
  List.any_append

/-- Of some alternatives among others, no more than their own alternation matters. -/
theorem alternation_append_congr (h : alternation xs = alternation xs')
    (h' : alternation ys = alternation ys') :
    alternation (xs ++ ys) = alternation (xs' ++ ys') := by
  apply ext_facts
  · rw [boundedLength_alternation_append, boundedLength_alternation_append, h, h']
  · rfl
  · rw [possiblyZeroLength_alternation_append, possiblyZeroLength_alternation_append, h, h']

/-- An alternation among other alternatives counts as its own alternatives. -/
theorem alternation_singleton_alternation (xs : List Analysis) :
    alternation [alternation xs] = alternation xs := by
  apply ext_facts
  · exact zero_maxBounds _
  · rfl
  · exact Bool.or_false _

end Analysis

/-- What a well-built expression offers counts among alternatives as the expression does. -/
theorem Expr.WellBuilt.alternation_alternatives {e : Expr} (h : e.WellBuilt) :
    Analysis.alternation (e.alternatives.map Expr.analysis)
      = Analysis.alternation [e.analysis] := by
  cases h with
  | @alternation alternatives _ _ _ _ =>
      have hwhole : (Expr.alternation alternatives
          (.alternation (alternatives.map Expr.profile))).analysis
            = Analysis.alternation (alternatives.map Expr.analysis) :=
        Alternation.analysis_ofAlternatives alternatives
      rw [hwhole, Analysis.alternation_singleton_alternation]
      rfl
  | _ => rfl

/-- An alternation has the analysis of its items as alternatives. -/
theorem Alternation.analysis_ofItems {items : List Alternative}
    (h : ∀ a ∈ items, a.expr.WellBuilt) :
    (ofItems items).toExpr.analysis = Analysis.alternation (items.map (·.expr.analysis)) := by
  have hwhole : (ofItems items).toExpr.analysis
      = Analysis.alternation ((items.flatMap (·.expr.alternatives)).map Expr.analysis) :=
    analysis_ofAlternatives _
  rw [hwhole]
  clear hwhole
  induction items with
  | nil => rfl
  | cons a items ih =>
      rw [List.flatMap_cons, List.map_append, List.map_cons, ← List.singleton_append]
      exact Analysis.alternation_append_congr (h a (by simp)).alternation_alternatives
        (ih fun b hb => h b (by simp [hb]))

end PatternAlgebra
