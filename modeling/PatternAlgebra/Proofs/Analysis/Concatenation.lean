import Mathlib.Algebra.GroupWithZero.Nat
import PatternAlgebra.Analysis
/-!
# Concatenating analyses

Putting one match after another is associative, clamp included, and a concatenation is always
clamped already.  So a part that is itself a concatenation may be opened in place, and the
analysis of a row of parts does not depend on how the row was put together.
-/

namespace PatternAlgebra

/-! ## Bounds -/

theorem clampBound_of_le {n : Nat} (h : n ≤ maxBoundedLength) : clampBound (some n) = some n := by
  simp [clampBound, Option.filter, h]

/-- What passes the clamp is the same bound, and within the ceiling. -/
theorem clampBound_eq_some_iff {bound : Option Nat} {n : Nat} :
    clampBound bound = some n ↔ bound = some n ∧ n ≤ maxBoundedLength := by
  simp [clampBound, Option.filter_eq_some_iff]

/-- What no machine word holds is above the ceiling anyway. -/
theorem clampBound_fitWord? (n : Nat) : clampBound (fitWord? n) = clampBound (some n) := by
  have hceiling : maxBoundedLength < wordLimit := by decide
  by_cases hword : n < wordLimit
  · rw [fitWord?, if_pos hword]
  · have habove : ¬ n ≤ maxBoundedLength := by omega
    rw [fitWord?, if_neg hword]
    simp [clampBound, Option.filter, habove]

@[simp] theorem addBounds_none_left (b : Option Nat) : addBounds none b = none := rfl

@[simp] theorem addBounds_none_right (a : Option Nat) : addBounds a none = none := by
  cases a <;> rfl

theorem addBounds_some (m n : Nat) : addBounds (some m) (some n) = clampBound (some (m + n)) :=
  clampBound_fitWord? (m + n)

/-- A sum of two bounds is a bound if both are bounds and the sum is within the ceiling. -/
theorem addBounds_eq_some_iff {a b : Option Nat} {n : Nat} :
    addBounds a b = some n ↔
      ∃ i j, a = some i ∧ b = some j ∧ i + j = n ∧ n ≤ maxBoundedLength := by
  cases a with
  | none => simp
  | some i =>
      cases b with
      | none => simp
      | some j =>
          rw [addBounds_some, clampBound_eq_some_iff]
          constructor
          · rintro ⟨heq, hle⟩
            exact ⟨i, j, rfl, rfl, Option.some.inj heq, hle⟩
          · rintro ⟨i', j', hi, hj, hsum, hle⟩
            obtain rfl := Option.some.inj hi
            obtain rfl := Option.some.inj hj
            exact ⟨congrArg some hsum, hle⟩

/-- The ceiling is met at the same sums, whichever are formed first. -/
theorem addBounds_assoc (a b c : Option Nat) :
    addBounds (addBounds a b) c = addBounds a (addBounds b c) := by
  ext n
  simp only [addBounds_eq_some_iff]
  constructor
  · rintro ⟨_, k, ⟨i, j, rfl, rfl, rfl, hij⟩, rfl, rfl, hn⟩
    exact ⟨i, j + k, rfl, ⟨j, k, rfl, rfl, rfl, by omega⟩, by omega, hn⟩
  · rintro ⟨i, _, rfl, ⟨j, k, rfl, rfl, rfl, hjk⟩, rfl, hn⟩
    exact ⟨i + j, k, ⟨i, j, rfl, rfl, rfl, by omega⟩, rfl, by omega, hn⟩

theorem clampBound_addBounds (a b : Option Nat) : clampBound (addBounds a b) = addBounds a b := by
  ext n
  rw [clampBound_eq_some_iff, addBounds_eq_some_iff]
  constructor
  · exact fun h => h.1
  · rintro ⟨i, j, ha, hb, hn, hle⟩
    exact ⟨⟨i, j, ha, hb, hn, hle⟩, hle⟩

theorem addBounds_zero (a : Option Nat) : addBounds a (some 0) = clampBound a := by
  cases a with
  | none => rfl
  | some n => rw [addBounds_some, Nat.add_zero]

theorem zero_addBounds (a : Option Nat) : addBounds (some 0) a = clampBound a := by
  cases a with
  | none => rfl
  | some n => rw [addBounds_some, Nat.zero_add]

/-- A product is a bound if there is one to multiply and the product is within the ceiling. -/
theorem mulBound_eq_some_iff {bound : Option Nat} {times n : Nat} :
    mulBound bound times = some n ↔ ∃ b, bound = some b ∧ b * times = n ∧ n ≤ maxBoundedLength := by
  cases bound with
  | none => simp [mulBound, clampBound]
  | some b =>
      show clampBound (fitWord? (b * times)) = some n ↔ _
      rw [clampBound_fitWord?, clampBound_eq_some_iff]
      constructor
      · rintro ⟨heq, hle⟩
        exact ⟨b, rfl, Option.some.inj heq, hle⟩
      · rintro ⟨b', hb, hproduct, hle⟩
        obtain rfl := Option.some.inj hb
        exact ⟨congrArg some hproduct, hle⟩

/-! ## Analyses -/

namespace Analysis

theorem ext_facts {a b : Analysis} (hbound : a.boundedLength = b.boundedLength)
    (hrepeat : a.repetitionInvalidatesBounds = b.repetitionInvalidatesBounds)
    (hzero : a.possiblyZeroLength = b.possiblyZeroLength) : a = b := by
  cases a
  cases b
  simp only at hbound hrepeat hzero
  rw [hbound, hrepeat, hzero]

theorem followedBy_assoc (a b c : Analysis) :
    (a.followedBy b).followedBy c = a.followedBy (b.followedBy c) := by
  apply ext_facts
  · exact addBounds_assoc _ _ _
  · exact Bool.or_assoc _ _ _
  · exact Bool.and_assoc _ _ _

/-- Going on from a sequence of two is going on from the second, after the first. -/
theorem foldl_followedBy (a b : Analysis) (parts : List Analysis) :
    parts.foldl followedBy (a.followedBy b) = a.followedBy (parts.foldl followedBy b) := by
  induction parts generalizing b with
  | nil => rfl
  | cons part parts ih => rw [List.foldl_cons, List.foldl_cons, followedBy_assoc, ih]

theorem concatenation_cons (part : Analysis) (parts : List Analysis) :
    concatenation (part :: parts) = (concatenation [part]).followedBy (concatenation parts) := by
  -- put after nothing, a part is clamped, and putting nothing after it changes it no more
  have hclamped : (nothing.followedBy part).followedBy nothing = nothing.followedBy part := by
    apply ext_facts
    · show addBounds (addBounds _ _) (some 0) = addBounds _ _
      rw [addBounds_zero, clampBound_addBounds]
    · exact Bool.or_false _
    · exact Bool.and_true _
  rw [concatenation, List.foldl_cons, ← hclamped, foldl_followedBy]
  rfl

/-- A concatenation is clamped, so nothing changes if it is concatenated alone. -/
theorem concatenation_singleton_concatenation (parts : List Analysis) :
    concatenation [concatenation parts] = concatenation parts := by
  have hempty : nothing.followedBy nothing = nothing := rfl
  rw [concatenation, List.foldl_cons, List.foldl_nil]
  conv => rhs; rw [concatenation, ← hempty, foldl_followedBy]
  rfl

theorem concatenation_append (xs ys : List Analysis) :
    concatenation (xs ++ ys) = (concatenation xs).followedBy (concatenation ys) := by
  induction xs with
  | nil =>
      rw [List.nil_append]
      exact (concatenation_singleton_concatenation ys).symm
  | cons x xs ih =>
      rw [List.cons_append, concatenation_cons, ih, ← followedBy_assoc, ← concatenation_cons]

/-- Every part may be opened in place. -/
theorem concatenation_map_eq_flatMap {α : Type} (parts : List α) (whole : α → Analysis)
    (opened : α → List Analysis)
    (h : ∀ part ∈ parts, concatenation [whole part] = concatenation (opened part)) :
    concatenation (parts.map whole) = concatenation (parts.flatMap opened) := by
  induction parts with
  | nil => rfl
  | cons part parts ih =>
      rw [List.map_cons, concatenation_cons, h part (by simp),
        ih fun p hp => h p (by simp [hp]), ← concatenation_append, List.flatMap_cons]

/-- A row has a bound if every part of it has one and their sum is within the ceiling. -/
theorem boundedLength_concatenation_eq_some_iff {α : Type} {parts : List α}
    {analysis : α → Analysis} {length : α → Nat} {Bounded : α → Prop}
    (h : ∀ a ∈ parts, ∀ n, (analysis a).boundedLength = some n ↔ Bounded a ∧ length a = n)
    (n : Nat) :
    (concatenation (parts.map analysis)).boundedLength = some n ↔
      (∀ a ∈ parts, Bounded a) ∧ (parts.map length).sum = n ∧ n ≤ maxBoundedLength := by
  induction parts generalizing n with
  | nil =>
      show some 0 = some n ↔ _
      constructor
      · intro hn
        obtain rfl := Option.some.inj hn
        exact ⟨(fun a ha => nomatch ha), rfl, Nat.zero_le _⟩
      · rintro ⟨-, hsum, -⟩
        exact congrArg some hsum
  | cons a parts ih =>
      have hfirst := h a (by simp)
      have hrest := ih fun b hb => h b (by simp [hb])
      rw [List.map_cons, concatenation_cons]
      show addBounds (addBounds (some 0) (analysis a).boundedLength) _ = some n ↔ _
      simp only [zero_addBounds, addBounds_eq_some_iff, clampBound_eq_some_iff, hfirst, hrest,
        List.forall_mem_cons, List.map_cons, List.sum_cons]
      constructor
      · rintro ⟨i, j, ⟨⟨ha, rfl⟩, -⟩, ⟨hparts, rfl, -⟩, hsum, hle⟩
        exact ⟨⟨ha, hparts⟩, hsum, hle⟩
      · rintro ⟨⟨ha, hparts⟩, hsum, hle⟩
        exact ⟨_, _, ⟨⟨ha, rfl⟩, by omega⟩, ⟨hparts, rfl, by omega⟩, hsum, hle⟩

/-- A row may not be repeated safely if one of its parts may not. -/
theorem repetitionInvalidatesBounds_concatenation (parts : List Analysis) :
    (concatenation parts).repetitionInvalidatesBounds
      = parts.any (·.repetitionInvalidatesBounds) := by
  induction parts with
  | nil => rfl
  | cons part parts ih =>
      rw [concatenation_cons, List.any_cons, ← ih]
      show (false || part.repetitionInvalidatesBounds || _) = _
      rw [Bool.false_or]

/-- A row can match the empty text if all of its parts can. -/
theorem possiblyZeroLength_concatenation (parts : List Analysis) :
    (concatenation parts).possiblyZeroLength = parts.all (·.possiblyZeroLength) := by
  induction parts with
  | nil => rfl
  | cons part parts ih =>
      rw [concatenation_cons, List.all_cons, ← ih]
      show (true && part.possiblyZeroLength && _) = _
      rw [Bool.true_and]

end Analysis

end PatternAlgebra
