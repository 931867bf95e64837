import Mathlib.Data.List.Perm.Basic
import PatternAlgebra.Proofs.Analysis.Concatenation
/-!
# A row of analyses in any order and any grouping

The bound of a row is looked at after every single addition, and an addition may also leave the
machine word.  None of this shows in the outcome.  A bound that is lost on the way is lost because
the whole sum is above the ceiling, so the row has the exact sum of the bounds or none, and neither
the order of the parts nor the way in which they were grouped before makes a difference.

The parts are arbitrary here.  A part need not be the analysis of any node, and its bound may be
above the ceiling or too large for a word.
-/

namespace PatternAlgebra

theorem addBounds_comm (a b : Option Nat) : addBounds a b = addBounds b a := by
  cases a with
  | none => rw [addBounds_none_left, addBounds_none_right]
  | some m =>
      cases b with
      | none => rw [addBounds_none_left, addBounds_none_right]
      | some n => rw [addBounds_some, addBounds_some, Nat.add_comm]

namespace Analysis

theorem followedBy_comm (a b : Analysis) : a.followedBy b = b.followedBy a := by
  apply ext_facts
  · exact addBounds_comm _ _
  · exact Bool.or_comm _ _
  · exact Bool.and_comm _ _

/-- Two parts of a row may change places. -/
theorem followedBy_right_comm (a b c : Analysis) :
    (a.followedBy b).followedBy c = (a.followedBy c).followedBy b := by
  rw [followedBy_assoc, followedBy_comm b c, ← followedBy_assoc]

theorem concatenation_perm {parts parts' : List Analysis} (h : parts.Perm parts') :
    concatenation parts = concatenation parts' :=
  h.foldl_eq' (fun a _ b _ row => followedBy_right_comm row a b) nothing

/-- A stretch of a row may be replaced by its own concatenation. -/
theorem concatenation_regroup (before middle after : List Analysis) :
    concatenation (before ++ concatenation middle :: after)
      = concatenation (before ++ middle ++ after) := by
  calc concatenation (before ++ concatenation middle :: after)
      = (concatenation before).followedBy
          ((concatenation [concatenation middle]).followedBy (concatenation after)) := by
        rw [concatenation_append, concatenation_cons]
    _ = ((concatenation before).followedBy (concatenation middle)).followedBy
          (concatenation after) := by
        rw [concatenation_singleton_concatenation, followedBy_assoc]
    _ = concatenation (before ++ middle ++ after) := by
        rw [concatenation_append, concatenation_append]

/-- The bound of a row is the exact sum of the bounds of its parts, as long as each part has one
    and the sum is within the ceiling. -/
theorem boundedLength_concatenation_iff_sum (parts : List Analysis) (n : Nat) :
    (concatenation parts).boundedLength = some n ↔
      (∀ part ∈ parts, part.boundedLength.isSome) ∧
        (parts.map fun part => part.boundedLength.getD 0).sum = n ∧ n ≤ maxBoundedLength := by
  have hpart : ∀ part ∈ parts, ∀ m, (id part).boundedLength = some m ↔
      part.boundedLength.isSome = true ∧ part.boundedLength.getD 0 = m := by
    intro part _ m
    show part.boundedLength = some m ↔ _
    cases part.boundedLength with
    | none => simp
    | some k => simp
  have hrow := boundedLength_concatenation_eq_some_iff hpart n
  rw [List.map_id] at hrow
  exact hrow

/-- **A row of analyses is a sum with a ceiling.**  Its bound is the exact sum of the bounds if
    every part has one and the sum is within the ceiling, and there is none otherwise; it may not be
    repeated safely if one of the parts may not; it can match the empty text if all parts can.  The
    order of the parts does not matter, and neither does it if a stretch of them has been put into
    one before. -/
theorem concatenation_isSumWithCeiling (parts : List Analysis) :
    (∀ n, (concatenation parts).boundedLength = some n ↔
      (∀ part ∈ parts, part.boundedLength.isSome) ∧
        (parts.map fun part => part.boundedLength.getD 0).sum = n ∧ n ≤ maxBoundedLength) ∧
    ((concatenation parts).repetitionInvalidatesBounds
      = parts.any (·.repetitionInvalidatesBounds)) ∧
    ((concatenation parts).possiblyZeroLength = parts.all (·.possiblyZeroLength)) ∧
    (∀ parts', parts'.Perm parts → concatenation parts' = concatenation parts) ∧
    (∀ before middle after, before ++ middle ++ after = parts →
      concatenation (before ++ concatenation middle :: after) = concatenation parts) := by
  refine ⟨boundedLength_concatenation_iff_sum parts,
    repetitionInvalidatesBounds_concatenation parts, possiblyZeroLength_concatenation parts,
    fun parts' hperm => concatenation_perm hperm, ?_⟩
  rintro before middle after rfl
  exact concatenation_regroup before middle after

/-- Bounds that add up to what a word wraps around to zero: in either order, and with nothing put
    between them, there is no bound. -/
theorem concatenation_isSumWithCeiling_past_the_word :
    let far : Analysis := ⟨some (wordLimit - 1), false, true⟩
    let one : Analysis := .singleChar
    [one, far].Perm [far, one] ∧
      (concatenation [far, one]).boundedLength = none ∧
      concatenation [one, far] = concatenation [far, one] ∧
      concatenation [far, concatenation [], one] = concatenation [far, one] := by
  intro far one
  have hperm : [one, far].Perm [far, one] := .swap far one []
  obtain ⟨hsum, -, -, horder, hgroup⟩ := concatenation_isSumWithCeiling [far, one]
  refine ⟨hperm, ?_, horder _ hperm, hgroup [far] [] [one] rfl⟩
  rw [Option.eq_none_iff_forall_ne_some]
  intro n hn
  obtain ⟨-, rfl, hle⟩ := (hsum n).mp hn
  exact absurd hle (by decide)

end Analysis

end PatternAlgebra
