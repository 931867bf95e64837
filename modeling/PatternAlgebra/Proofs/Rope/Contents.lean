import PatternAlgebra.Rope.Basic
import PatternAlgebra.Proofs.Text.Positions
/-!
# The characters of a rope

`contents` reads a rope as the list of its characters, and `WellFormed` says what the operations
keep true of the stored lengths as long as words hold them.  Every operation on ropes is an
operation on lists: appending is appending, a view is a piece cut out, and descending to a position
is indexing.

The characters are not read off the stored lengths, so a rope has all its characters also when there
are more of them than words.  What is lost then is `WellFormed`.  `appendExactly` is the join that
never loses it; the join of the machine is the same as long as a word holds the sum.
-/

namespace PatternAlgebra.Rope

/-- The characters of a rope, read off its shape. -/
def contents : Rope → List Char
  | empty => []
  | leaf text _ => text.toList
  | window parent start length => (parent.contents.drop start).take length
  | concat left right _ => left.contents ++ right.contents

/-- Whether a rope is a view of another. -/
def isWindow : Rope → Bool
  | window _ _ _ => true
  | _ => false

/-- The stored lengths are right, no node is without characters, and a view is a proper part of
    something that is not a view. -/
inductive WellFormed : Rope → Prop where
  | empty : WellFormed empty
  | leaf {text : String} (nonempty : 0 < text.length) : WellFormed (leaf text text.length)
  | window {parent : Rope} {start length : Nat} (parent_wellFormed : WellFormed parent)
      (parent_notWindow : parent.isWindow = false) (nonempty : 0 < length)
      (inside : start + length ≤ parent.length) (proper : length < parent.length) :
      WellFormed (window parent start length)
  | concat {left right : Rope} (left_wellFormed : WellFormed left)
      (right_wellFormed : WellFormed right) (left_nonempty : 0 < left.length)
      (right_nonempty : 0 < right.length) :
      WellFormed (concat left right (left.length + right.length))

/-! ## Lengths -/

theorem WellFormed.length_eq {rope : Rope} (h : WellFormed rope) :
    rope.length = rope.contents.length := by
  induction h with
  | empty => rfl
  | leaf nonempty => rw [length, contents, String.length_toList]
  | window _ _ _ inside _ ih =>
      rw [length, contents, List.length_take, List.length_drop, ← ih]
      omega
  | concat _ _ _ _ ihl ihr => rw [length, contents, List.length_append, ← ihl, ← ihr]

theorem WellFormed.length_pos {rope : Rope} (h : WellFormed rope) (hne : rope.isEmpty = false) :
    0 < rope.length := by
  cases h with
  | empty => exact absurd hne (by simp [isEmpty])
  | leaf nonempty => exact nonempty
  | window _ _ nonempty _ _ => exact nonempty
  | concat _ _ hl hr => exact Nat.add_pos_left hl _

theorem WellFormed.isEmpty_eq {rope : Rope} (h : WellFormed rope) :
    rope.isEmpty = rope.contents.isEmpty := by
  cases hne : rope.isEmpty with
  | true =>
      have hempty : rope = Rope.empty := by
        cases rope with
        | empty => rfl
        | leaf _ _ => exact absurd hne (by simp [isEmpty])
        | window _ _ _ => exact absurd hne (by simp [isEmpty])
        | concat _ _ _ => exact absurd hne (by simp [isEmpty])
      rw [hempty, contents, List.isEmpty_nil]
  | false =>
      have hpos := h.length_pos hne
      rw [h.length_eq, List.length_pos_iff] at hpos
      exact (List.isEmpty_eq_false_iff.mpr hpos).symm

theorem WellFormed.isEmpty_eq_false {rope : Rope} (h : WellFormed rope) (hpos : 0 < rope.length) :
    rope.isEmpty = false := by
  rw [h.isEmpty_eq, List.isEmpty_eq_false_iff]
  rw [h.length_eq] at hpos
  exact List.ne_nil_of_length_pos hpos

/-! ## Making ropes -/

theorem wellFormed_ofString (text : String) : WellFormed (ofString text) := by
  unfold ofString
  by_cases h : text.isEmpty = true
  · rw [if_pos h]
    exact .empty
  · rw [if_neg h]
    refine .leaf (Nat.pos_of_ne_zero fun hzero => h ?_)
    rw [← String.length_toList, List.length_eq_zero_iff] at hzero
    simpa using hzero

@[simp] theorem contents_ofString (text : String) : (ofString text).contents = text.toList := by
  unfold ofString
  by_cases h : text.isEmpty = true
  · rw [if_pos h, contents]
    simpa using h
  · rw [if_neg h, contents]

theorem wellFormed_ofChar (c : Char) : WellFormed (ofChar c) := wellFormed_ofString _

@[simp] theorem contents_ofChar (c : Char) : (ofChar c).contents = [c] := by
  rw [ofChar, contents_ofString, String.toList_singleton]

theorem append_def (left right : Rope) : left ++ right = left.append right := rfl

theorem append_of_isEmpty_left {left : Rope} (h : left.isEmpty = true) (right : Rope) :
    left ++ right = right := by
  rw [append_def, append, if_pos h]

theorem append_of_isEmpty_right {left right : Rope} (hl : left.isEmpty = false)
    (hr : right.isEmpty = true) : left ++ right = left := by
  rw [append_def, append, hl, if_neg Bool.false_ne_true, if_pos hr]

/-- A join of ropes that are not the empty one is not the empty one either. -/
theorem append_of_not_isEmpty {left right : Rope} (hl : left.isEmpty = false)
    (hr : right.isEmpty = false) :
    left ++ right = concat left right (addWord left.length right.length) := by
  rw [append_def, append, hl, hr]
  rfl

/-- One rope after another, with the sum of their lengths whether a word holds it or not. -/
def appendExactly (left right : Rope) : Rope :=
  if left.isEmpty then right
  else if right.isEmpty then left
  else concat left right (left.length + right.length)

/-- A join is the exact join, if a word holds its length. -/
theorem append_eq_appendExactly {left right : Rope} (h : left.length + right.length < wordLimit) :
    left ++ right = left.appendExactly right := by
  rw [append_def, append, appendExactly, addWord, Nat.mod_eq_of_lt h]

theorem wellFormed_appendExactly {left right : Rope} (hl : WellFormed left)
    (hr : WellFormed right) : WellFormed (left.appendExactly right) := by
  rw [appendExactly]
  by_cases hle : left.isEmpty = true
  · rwa [if_pos hle]
  · rw [if_neg hle]
    by_cases hre : right.isEmpty = true
    · rwa [if_pos hre]
    · rw [if_neg hre]
      exact .concat hl hr (hl.length_pos (by simpa using hle)) (hr.length_pos (by simpa using hre))

theorem wellFormed_append {left right : Rope} (hl : WellFormed left) (hr : WellFormed right)
    (h : left.length + right.length < wordLimit) : WellFormed (left ++ right) := by
  rw [append_eq_appendExactly h]
  exact wellFormed_appendExactly hl hr

theorem contents_eq_nil_of_isEmpty {rope : Rope} (h : rope.isEmpty = true) :
    rope.contents = [] := by
  cases rope with
  | empty => rfl
  | leaf _ _ => exact nomatch h
  | window _ _ _ => exact nomatch h
  | concat _ _ _ => exact nomatch h

@[simp] theorem contents_append (left right : Rope) :
    (left ++ right).contents = left.contents ++ right.contents := by
  cases hl : left.isEmpty with
  | true => rw [append_of_isEmpty_left hl, contents_eq_nil_of_isEmpty hl, List.nil_append]
  | false =>
      cases hr : right.isEmpty with
      | true => rw [append_of_isEmpty_right hl hr, contents_eq_nil_of_isEmpty hr, List.append_nil]
      | false => rw [append_of_not_isEmpty hl hr, contents]

/-- As long as a word holds the sum of both lengths, a join stores it. -/
theorem length_append_of_wellFormed {left right : Rope} (hl : WellFormed left)
    (hr : WellFormed right) (h : left.length + right.length < wordLimit) :
    (left ++ right).length = left.length + right.length := by
  rw [(wellFormed_append hl hr h).length_eq, contents_append, List.length_append, ← hl.length_eq,
    ← hr.length_eq]

@[simp] theorem contents_appendExactly (left right : Rope) :
    (left.appendExactly right).contents = left.contents ++ right.contents := by
  rw [appendExactly]
  by_cases hle : left.isEmpty = true
  · rw [if_pos hle, contents_eq_nil_of_isEmpty hle, List.nil_append]
  · rw [if_neg hle]
    by_cases hre : right.isEmpty = true
    · rw [if_pos hre, contents_eq_nil_of_isEmpty hre, List.append_nil]
    · rw [if_neg hre, contents]

/-! ## Ropes of texts and joins -/

/-- The stored lengths are right unless there are too many characters. -/
def WellSized (rope : Rope) : Prop := rope.contents.length < wordLimit → rope.WellFormed

theorem WellFormed.wellSized {rope : Rope} (h : rope.WellFormed) : rope.WellSized := fun _ => h

theorem wellSized_ofString (text : String) : (ofString text).WellSized :=
  (wellFormed_ofString text).wellSized

theorem wellSized_append {left right : Rope} (hl : left.WellSized) (hr : right.WellSized) :
    (left ++ right).WellSized := by
  intro hlt
  rw [contents_append, List.length_append] at hlt
  have hleft : left.WellFormed := hl (by omega)
  have hright : right.WellFormed := hr (by omega)
  exact wellFormed_append hleft hright (by rwa [hleft.length_eq, hright.length_eq])

/-! ## Views -/

/-- A range that ends before it starts is refused before anything else is looked at. -/
theorem subSequence_of_gt (rope : Rope) {start stop : Nat} (h : stop < start) :
    rope.subSequence start stop = .error (.startAfterEnd start stop) := by
  unfold subSequence
  rw [if_pos h]

/-- A range in order that ends past the end is refused. -/
theorem subSequence_of_past (rope : Rope) {start stop : Nat} (h : start ≤ stop)
    (hpast : rope.length < stop) :
    rope.subSequence start stop = .error (.endPastLength stop rope.length) := by
  unfold subSequence
  rw [if_neg (Nat.not_lt.mpr h), if_pos hpast]

/-- A view is of a range inside the rope, and it is without characters, all of the rope, or a window
    on the rope or on what the rope is a window on. -/
theorem view_cases {rope view : Rope} {start stop : Nat}
    (h : rope.subSequence start stop = .ok view) :
    start ≤ stop ∧ stop ≤ rope.length ∧
      (view = empty ∨ view = rope ∨ view = window rope start (stop - start) ∨
        ∃ parent offset length, rope = window parent offset length ∧
          view = window parent (start + offset) (stop - start)) := by
  unfold subSequence at h
  by_cases hgt : start > stop
  · rw [if_pos hgt] at h
    exact nomatch h
  · rw [if_neg hgt] at h
    by_cases hpast : stop > rope.length
    · rw [if_pos hpast] at h
      exact nomatch h
    · rw [if_neg hpast] at h
      refine ⟨Nat.not_lt.mp hgt, Nat.not_lt.mp hpast, ?_⟩
      by_cases heq : start = stop
      · rw [if_pos heq] at h
        exact .inl (Except.ok.inj h).symm
      · rw [if_neg heq] at h
        by_cases hall : start = 0 ∧ stop = rope.length
        · rw [if_pos hall] at h
          exact .inr (.inl (Except.ok.inj h).symm)
        · rw [if_neg hall] at h
          refine .inr (.inr ?_)
          cases rope with
          | window parent offset length =>
              exact .inr ⟨parent, offset, length, rfl, (Except.ok.inj h).symm⟩
          | _ => exact .inl (Except.ok.inj h).symm

/-- The part of a rope at the positions `start`, …, `start + count - 1`, with a view in between
    left out. -/
theorem contents_window_window (parent : Rope) (offset length start count : Nat)
    (h : start + count ≤ length) :
    (window parent (start + offset) count).contents
      = ((window parent offset length).contents.drop start).take count := by
  rw [contents, contents, List.drop_take, List.drop_drop, List.take_take, Nat.add_comm offset,
    Nat.min_eq_left (by omega)]

/-- A range inside the rope has a view, which is a rope again and shows that range. -/
theorem subSequence_of_inside {rope : Rope} (h : WellFormed rope) {start stop : Nat}
    (hle : start ≤ stop) (hin : stop ≤ rope.length) :
    ∃ view, rope.subSequence start stop = .ok view ∧ WellFormed view ∧
      view.contents = (rope.contents.drop start).take (stop - start) := by
  unfold subSequence
  rw [if_neg (Nat.not_lt.mpr hle), if_neg (Nat.not_lt.mpr hin)]
  by_cases heq : start = stop
  · refine ⟨.empty, by rw [if_pos heq], .empty, ?_⟩
    rw [heq, Nat.sub_self, List.take_zero, contents]
  · rw [if_neg heq]
    by_cases hall : start = 0 ∧ stop = rope.length
    · refine ⟨rope, by rw [if_pos hall], h, ?_⟩
      rw [hall.1, hall.2, Nat.sub_zero, List.drop_zero, h.length_eq, List.take_length]
    · rw [if_neg hall]
      have hpos : 0 < stop - start := by omega
      have hproper : stop - start < rope.length := by omega
      cases h with
      | empty => exact absurd hin (by rw [length]; omega)
      | leaf nonempty => exact ⟨_, rfl, .window (.leaf nonempty) rfl hpos (by omega) hproper, rfl⟩
      | concat hl hr hl0 hr0 =>
          exact ⟨_, rfl, .window (.concat hl hr hl0 hr0) rfl hpos (by omega) hproper, rfl⟩
      | window hparent hnot nonempty inside proper =>
          -- the view looks past the window, straight at its parent
          rw [length] at hin hproper
          exact ⟨_, rfl, .window hparent hnot hpos (by omega) (by omega),
            contents_window_window _ _ _ _ _ (by omega)⟩

/-! ## Positions -/

/-- Descending to a position is indexing. -/
theorem locate?_eq {rope : Rope} (h : WellFormed rope) (index : Nat) :
    rope.locate? index = rope.contents[index]? := by
  induction h generalizing index with
  | empty => rfl
  | @leaf text _ =>
      rw [locate?, contents]
      by_cases hi : text.length ≤ index
      · rw [if_pos hi, List.getElem?_eq_none (by rwa [String.length_toList])]
      · rw [if_neg hi, Text.charAt?_eq]
  | @window parent start length _ _ _ inside _ ih =>
      rw [locate?, contents]
      by_cases hi : length ≤ index
      · rw [if_pos hi, List.getElem?_eq_none ((List.length_take_le _ _).trans hi)]
      · rw [if_neg hi, ih, List.getElem?_take_of_lt (by omega), List.getElem?_drop,
          Nat.add_comm start]
  | @concat left right hl hr _ _ ihl ihr =>
      rw [locate?, contents]
      by_cases hi : left.length + right.length ≤ index
      · rw [if_pos hi, List.getElem?_eq_none (by
          rw [List.length_append, ← hl.length_eq, ← hr.length_eq]; exact hi)]
      · rw [if_neg hi]
        by_cases hleft : index < left.length
        · rw [if_pos hleft, ihl, List.getElem?_append_left (by rwa [← hl.length_eq])]
        · rw [if_neg hleft, ihr, List.getElem?_append_right (by rw [← hl.length_eq]; omega),
            hl.length_eq]

theorem charAt_eq {rope : Rope} (h : WellFormed rope) (index : Nat) :
    rope.charAt index = if hi : index < rope.contents.length then .ok rope.contents[index]
      else .error (.charAt index rope.contents.length) := by
  rw [charAt, locate?_eq h]
  by_cases hi : index < rope.contents.length
  · rw [dif_pos hi, List.getElem?_eq_getElem hi]
  · rw [dif_neg hi, List.getElem?_eq_none (by omega), h.length_eq]

end PatternAlgebra.Rope
