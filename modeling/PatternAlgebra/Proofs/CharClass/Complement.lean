import PatternAlgebra.Proofs.CharClass.Denotation
/-!
# Complementing twice

Complementing a class flips a mark, takes a complement away, or writes one around it, and which of
these happens depends on the class alone.  Doing it twice leads back to the very class it started
from, text included, and doing it once never does.

The way back is only right because of what a complement is written around.  Taking the complement
away from a class with a mark of its own and complementing again would flip that mark instead of
writing the complement back.
-/

namespace PatternAlgebra

/-! ## Letters -/

namespace Shorthand

/-- An ASCII letter in the other case. -/
def otherCase (c : Char) : Char := if c.isLower then c.toUpper else c.toLower

/-- The letter of the complement is the letter of the class in the other case. -/
theorem letter_not (kind : Shorthand) (isNegated : Bool) :
    kind.letter (!isNegated) = otherCase (kind.letter isNegated) := by
  cases kind <;> cases isNegated <;> rfl

/-- The letter alone tells class and complement, so it may be kept in place of both. -/
theorem letter_inj {kind kind' : Shorthand} {isNegated isNegated' : Bool} :
    kind.letter isNegated = kind'.letter isNegated' ↔ kind = kind' ∧ isNegated = isNegated' := by
  cases kind <;> cases kind' <;> cases isNegated <;> cases isNegated' <;> decide

end Shorthand

namespace CharClass

/-- Complementing a class with a one-letter name changes the case of the letter. -/
theorem bareChars_negate_shorthand (kind : Shorthand) (isNegated : Bool) :
    (shorthand kind isNegated).negate.bareChars
      = ['\\', Shorthand.otherCase (kind.letter isNegated)] := by
  rw [negate, bareChars, Shorthand.letter_not]

/-! ## Complements of complements -/

variable {k : CharClass}

/-- A complement is written around a class that has none of its own. -/
theorem negate_of_not_hasOwnComplement (h : k.hasOwnComplement = false) :
    k.negate = complement k := by
  cases k with
  | shorthand _ _ => exact nomatch h
  | property _ _ => exact nomatch h
  | complement _ => exact nomatch h
  | _ => rfl

theorem negate_negate (h : k.WellBuilt) : k.negate.negate = k := by
  cases h with
  | shorthand kind isNegated => rw [negate, negate, Bool.not_not]
  | property name isNegated => rw [negate, negate, Bool.not_not]
  | complement needed _ =>
      -- what is taken away is written back, since the class inside cannot do without it
      rw [negate]
      exact negate_of_not_hasOwnComplement needed
  | _ => rfl

/-- No class is written inside itself. -/
theorem complement_ne_self (k : CharClass) : complement k ≠ k := by
  intro h
  have hsize := congrArg sizeOf h
  rw [complement.sizeOf_spec] at hsize
  omega

theorem negate_ne_self (k : CharClass) : k.negate ≠ k := by
  cases k with
  | shorthand kind isNegated =>
      intro h
      exact Bool.not_ne_self isNegated (shorthand.inj h).2
  | property name isNegated =>
      intro h
      exact Bool.not_ne_self isNegated (property.inj h).2
  | complement inner =>
      intro h
      exact complement_ne_self inner h.symm
  | _ => exact complement_ne_self _

end CharClass

namespace ClassProgram

/-- A program that goes on with a complement is never refused there. -/
theorem build_negated {p : ClassProgram} {k : CharClass} (h : p.build = .ok k) :
    (negated p).build = .ok k.negate :=
  bind_eq_ok_iff.mpr ⟨k, h, rfl⟩

/-- **Complementing a class twice gives back the class.**  Whatever program has built the class, it
    can be complemented and complemented again; the outcome is the same class, with the same two
    texts, and the class in between is never the same. -/
theorem negated_isInvolution {p : ClassProgram} {k : CharClass} (h : p.build = .ok k) :
    ∃ once twice : CharClass,
      (negated p).build = .ok once ∧ (negated (negated p)).build = .ok twice ∧
      (twice == k) = true ∧ twice.independent = k.independent ∧ twice.unitable = k.unitable ∧
      (once == k) = false := by
  have hsame : k.negate.negate = k := CharClass.negate_negate (wellBuilt_of_build h)
  refine ⟨k.negate, k.negate.negate, build_negated h, build_negated (build_negated h), ?_, ?_, ?_,
    ?_⟩
  · exact beq_iff_eq.mpr hsame
  · rw [hsame]
  · rw [hsame]
  · exact beq_eq_false_iff_ne.mpr k.negate_ne_self

/-- A complement around a union in which a mark has been flipped. -/
theorem negated_isInvolution_around_a_union :
    let p : ClassProgram := negated (union (char 'a') (negated (predefined (.shorthand .digit))))
    let k : CharClass := .complement (.union [.single 'a', .shorthand .digit true])
    ∃ once twice : CharClass, p.build = .ok k ∧
      (negated p).build = .ok once ∧ (negated (negated p)).build = .ok twice ∧
      (twice == k) = true ∧ twice.independent = "[^a\\D]" ∧ (once == k) = false := by
  intro p k
  have hbuild : p.build = .ok k := rfl
  obtain ⟨once, twice, honce, htwice, hsame, htext, -, hother⟩ := negated_isInvolution hbuild
  refine ⟨once, twice, hbuild, honce, htwice, hsame, ?_, hother⟩
  rw [htext]
  decide +kernel

end ClassProgram

end PatternAlgebra
