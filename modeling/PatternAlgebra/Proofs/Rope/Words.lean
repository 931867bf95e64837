import PatternAlgebra.Proofs.Rope.Programs
/-!
# Ropes with lengths in words stay in bounds

A join in words may store less than the sum of both lengths, so the stored lengths need not be those
of any text.  What the operations keep true of them even so is that each is a word, that a window
ends inside its parent, and that a join is not longer than its sides together.
-/

namespace PatternAlgebra

namespace Rope

theorem addWord_lt (m n : Nat) : addWord m n < wordLimit := Nat.mod_lt _ (by decide)

/-! ## Bounds -/

/-- Every stored length is a word, a leaf has the length of its text, a window ends inside its
    parent, and a join is not longer than its sides together. -/
inductive InBounds : Rope → Prop where
  | empty : InBounds empty
  | leaf {text : String} (word : text.length < wordLimit) : InBounds (leaf text text.length)
  | window {parent : Rope} {start length : Nat} (parent_inBounds : InBounds parent)
      (inside : start + length ≤ parent.length) : InBounds (window parent start length)
  | concat {left right : Rope} {length : Nat} (left_inBounds : InBounds left)
      (right_inBounds : InBounds right) (word : length < wordLimit)
      (covered : length ≤ left.length + right.length) : InBounds (concat left right length)

theorem InBounds.length_lt {rope : Rope} (h : rope.InBounds) : rope.length < wordLimit := by
  induction h with
  | empty => exact (by decide : 0 < wordLimit)
  | leaf word => exact word
  | window _ inside ih => exact Nat.lt_of_le_of_lt (Nat.le_of_add_left_le inside) ih
  | concat _ _ word _ => exact word

/-! ## Operations and programs -/

theorem inBounds_ofString {text : String} (h : text.length < wordLimit) :
    (ofString text).InBounds := by
  unfold ofString
  by_cases hempty : text.isEmpty = true
  · rw [if_pos hempty]
    exact .empty
  · rw [if_neg hempty]
    exact .leaf h

theorem inBounds_append {left right : Rope} (hl : left.InBounds) (hr : right.InBounds) :
    (left ++ right).InBounds := by
  rw [append_def, append]
  by_cases hle : left.isEmpty = true
  · rwa [if_pos hle]
  · rw [if_neg hle]
    by_cases hre : right.isEmpty = true
    · rwa [if_pos hre]
    · -- a sum that is cut off is smaller than the sum
      rw [if_neg hre]
      exact .concat hl hr (addWord_lt _ _) (Nat.mod_le _ _)

theorem inBounds_subSequence {rope view : Rope} {start stop : Nat} (h : rope.InBounds)
    (hview : rope.subSequence start stop = .ok view) : view.InBounds := by
  obtain ⟨hle, hstop, rfl | rfl | rfl | ⟨parent, offset, length, rfl, rfl⟩⟩ := view_cases hview
  · exact .empty
  · exact h
  · exact .window h (by omega)
  · cases h with
    | window hparent inside =>
        rw [Rope.length] at hstop
        exact .window hparent (by omega)

/-- A call makes a rope in bounds from ropes in bounds. -/
theorem inBounds_value {earlier : List (Option Rope)}
    (h : ∀ rope : Rope, some rope ∈ earlier → rope.InBounds) {call : Call}
    (htext : ∀ text : String, call = .ofString text → text.length < wordLimit) {made : Rope}
    (hmade : call.value onWords earlier = some made) : made.InBounds := by
  cases call with
  | empty =>
      obtain rfl := Option.some.inj hmade
      exact .empty
  | ofString text =>
      obtain rfl := Option.some.inj hmade
      exact inBounds_ofString (htext text rfl)
  | ofChar c =>
      obtain rfl := Option.some.inj hmade
      refine inBounds_ofString ?_
      rw [String.length_singleton]
      decide
  | append a b =>
      obtain ⟨x, hx, hmade⟩ := Option.bind_eq_some_iff.mp hmade
      obtain ⟨y, hy, hmade⟩ := Option.bind_eq_some_iff.mp hmade
      obtain rfl := Option.some.inj hmade
      exact inBounds_append (h x (mem_of_getElem?_join_eq_some hx))
        (h y (mem_of_getElem?_join_eq_some hy))
  | subSequence a start stop =>
      obtain ⟨x, hx, hmade⟩ := Option.bind_eq_some_iff.mp hmade
      exact inBounds_subSequence (h x (mem_of_getElem?_join_eq_some hx))
        (subSequence_onRopes_eq_some_iff.mp hmade)

theorem inBounds_runAfter (program : List Call) {earlier : List (Option Rope)}
    (h : ∀ rope : Rope, some rope ∈ earlier → rope.InBounds)
    (htexts : ∀ text : String, .ofString text ∈ program → text.length < wordLimit) :
    ∀ rope : Rope, some rope ∈ runAfter onWords earlier program → rope.InBounds := by
  induction program generalizing earlier with
  | nil => exact h
  | cons call calls ih =>
      refine ih (fun rope hmem => ?_) fun text hmem => htexts text (List.mem_cons_of_mem _ hmem)
      rcases List.mem_append.mp hmem with hold | hnew
      · exact h rope hold
      · refine inBounds_value h (fun text htext => ?_) (List.mem_singleton.mp hnew).symm
        exact htexts text (List.mem_cons.mpr (.inl htext.symm))

/-- Every rope of a program in words is in bounds. -/
theorem inBounds_of_mem_run {program : List Call}
    (htexts : ∀ text : String, .ofString text ∈ program → text.length < wordLimit) {rope : Rope}
    (h : some rope ∈ run onWords program) : rope.InBounds := by
  have hnone : ∀ rope : Rope, some rope ∈ ([] : List (Option Rope)) → rope.InBounds :=
    fun _ hmem => nomatch hmem
  exact inBounds_runAfter program hnone htexts rope h

end Rope

end PatternAlgebra
