import PatternAlgebra.Proofs.Analysis.Lengths
/-!
# The order of analyses

An analysis is below another if it promises at least as much: a bound that is no greater, where no
bound at all is above every bound, and neither flag raised unless the other has it raised.  Whatever
an analysis is computed from, the outcome follows the order.

For sums, products and maxima this is seen on the bounds that there are: a sum that stays below the
ceiling leaves the smaller sum below it too.  A counted quantifier drops the bound where the flag of
its base is raised, and a raised flag of the lower base is a raised flag of the upper one.
-/

namespace PatternAlgebra

/-- The order of bounds. -/
def BoundAtMost : Option Nat → Option Nat → Prop
  | _, none => True
  | none, some _ => False
  | some m, some n => m ≤ n

instance : DecidableRel BoundAtMost
  | _, none => .isTrue trivial
  | none, some _ => .isFalse not_false
  | some m, some n => inferInstanceAs (Decidable (m ≤ n))

/-- Where the upper bound is a number, the lower one is, and no greater. -/
theorem boundAtMost_iff {a b : Option Nat} :
    BoundAtMost a b ↔ ∀ n, b = some n → ∃ m, a = some m ∧ m ≤ n := by
  cases b with
  | none => simp [BoundAtMost]
  | some n =>
      cases a with
      | none => simp [BoundAtMost]
      | some m => simp [BoundAtMost]

namespace BoundAtMost

variable {a b a' b' : Option Nat}

theorem refl (a : Option Nat) : BoundAtMost a a :=
  boundAtMost_iff.mpr fun n hn => ⟨n, hn, Nat.le_refl n⟩

theorem ne_none (h : BoundAtMost a b) (hb : b ≠ none) : a ≠ none := by
  obtain ⟨n, hn⟩ := Option.ne_none_iff_exists'.mp hb
  obtain ⟨m, hm, -⟩ := boundAtMost_iff.mp h n hn
  exact Option.ne_none_iff_exists'.mpr ⟨m, hm⟩

theorem add (h : BoundAtMost a b) (h' : BoundAtMost a' b') :
    BoundAtMost (addBounds a a') (addBounds b b') := by
  rw [boundAtMost_iff] at h h' ⊢
  intro n hn
  obtain ⟨i, j, hi, hj, rfl, hle⟩ := addBounds_eq_some_iff.mp hn
  obtain ⟨k, hk, hki⟩ := h i hi
  obtain ⟨l, hl, hlj⟩ := h' j hj
  exact ⟨k + l, addBounds_eq_some_iff.mpr ⟨k, l, hk, hl, rfl, by omega⟩, by omega⟩

theorem mul (h : BoundAtMost a b) (times : Nat) :
    BoundAtMost (mulBound a times) (mulBound b times) := by
  rw [boundAtMost_iff] at h ⊢
  intro n hn
  obtain ⟨i, hi, rfl, hle⟩ := mulBound_eq_some_iff.mp hn
  obtain ⟨k, hk, hki⟩ := h i hi
  have hproduct : k * times ≤ i * times := Nat.mul_le_mul_right times hki
  exact ⟨k * times, mulBound_eq_some_iff.mpr ⟨k, hk, rfl, by omega⟩, hproduct⟩

theorem max (h : BoundAtMost a b) (h' : BoundAtMost a' b') :
    BoundAtMost (maxBounds a a') (maxBounds b b') := by
  rw [boundAtMost_iff] at h h' ⊢
  intro n hn
  obtain ⟨i, j, hi, hj, rfl⟩ := maxBounds_eq_some_iff.mp hn
  obtain ⟨k, hk, hki⟩ := h i hi
  obtain ⟨l, hl, hlj⟩ := h' j hj
  refine ⟨_, maxBounds_eq_some_iff.mpr ⟨k, l, hk, hl, rfl⟩, ?_⟩
  omega

end BoundAtMost

namespace Analysis

/-- The order of analyses, fact by fact. -/
structure AtMost (a b : Analysis) : Prop where
  boundedLength : BoundAtMost a.boundedLength b.boundedLength
  repetitionInvalidatesBounds : a.repetitionInvalidatesBounds ≤ b.repetitionInvalidatesBounds
  possiblyZeroLength : a.possiblyZeroLength ≤ b.possiblyZeroLength

variable {a b a' b' : Analysis} {as bs : List Analysis}

theorem AtMost.refl (a : Analysis) : a.AtMost a := ⟨.refl _, le_refl _, le_refl _⟩

theorem AtMost.followedBy (h : a.AtMost b) (h' : a'.AtMost b') :
    (a.followedBy a').AtMost (b.followedBy b') where
  boundedLength := h.boundedLength.add h'.boundedLength
  repetitionInvalidatesBounds :=
    sup_le_sup h.repetitionInvalidatesBounds h'.repetitionInvalidatesBounds
  possiblyZeroLength := inf_le_inf h.possiblyZeroLength h'.possiblyZeroLength

theorem AtMost.concatenation (h : List.Forall₂ AtMost as bs) :
    (Analysis.concatenation as).AtMost (.concatenation bs) :=
  List.rel_foldl (fun _ _ hx _ _ hy => hx.followedBy hy) (.refl _) h

theorem AtMost.alternation (h : List.Forall₂ AtMost as bs) :
    (Analysis.alternation as).AtMost (.alternation bs) where
  boundedLength := List.rel_foldl (fun _ _ hx _ _ hy => hx.max hy.boundedLength) (.refl _) h
  repetitionInvalidatesBounds := le_refl true
  possiblyZeroLength := by
    show as.any _ ≤ bs.any _
    induction h with
    | nil => exact le_refl _
    | cons hfirst _ ih =>
        rw [List.any_cons, List.any_cons]
        exact sup_le_sup hfirst.possiblyZeroLength ih

/-- A repetition of the lower base is below the same repetition of the upper one. -/
theorem AtMost.quantified (h : a.AtMost b) (q : Quantifier) :
    (q.analysis a).AtMost (q.analysis b) := by
  -- the bound of a counted repetition is kept only while the flag of the base is down
  have hcounted : ∀ {bound bound' : Option Nat}, BoundAtMost bound bound' →
      BoundAtMost (if a.repetitionInvalidatesBounds then none else bound)
        (if b.repetitionInvalidatesBounds then none else bound') := by
    intro bound bound' hbound
    by_cases hb : b.repetitionInvalidatesBounds = true
    · rw [if_pos hb]
      trivial
    · have ha : ¬ a.repetitionInvalidatesBounds = true :=
        fun ha => hb (Bool.le_iff_imp.mp h.repetitionInvalidatesBounds ha)
      rw [if_neg hb, if_neg ha]
      exact hbound
  cases q with
  | anyTimes => exact .refl _
  | optional => exact ⟨h.boundedLength, le_refl _, le_refl _⟩
  | atLeastOnce => exact ⟨.refl _, le_refl _, h.possiblyZeroLength⟩
  | exactly count =>
      exact ⟨hcounted (h.boundedLength.mul count), h.repetitionInvalidatesBounds,
        sup_le_sup_left h.possiblyZeroLength _⟩
  | range min max =>
      refine ⟨hcounted ?_, sup_le_sup_left h.repetitionInvalidatesBounds _,
        sup_le_sup_left h.possiblyZeroLength _⟩
      cases max with
      | none => exact .refl _
      | some max => exact h.boundedLength.mul max

end Analysis

end PatternAlgebra
