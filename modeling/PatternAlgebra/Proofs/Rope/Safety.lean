import PatternAlgebra.Proofs.Rope.Checked
import PatternAlgebra.Proofs.Rope.Overflow
/-!
# Reading a rope never comes to a fault

The offsets of windows are added on the way down and the lengths of left sides subtracted, in three
functions that do not check what they compute.  That they need no check is due to the shape of the
ropes that programs make: a window ends inside its parent, and a join is not longer than its sides
together.  So a position inside a node stays inside the node below it, whichever way the reader
goes, and all numbers on the way are bounded by some stored length.

A join whose length was cut off is shorter than its sides, and reading it is safe all the same.
What goes wrong there is that the stored length is not the sum any more, and may be zero.  As long
as all texts of the program fit, the stored lengths agree with each other at every node.
-/

namespace PatternAlgebra

/-! ## Stored texts -/

namespace Text

/-- The offset of a position stands between two characters. -/
theorem isBoundary_utf8Len_take (text : String) (i : Nat) :
    IsBoundary text (String.utf8Len (text.toList.take i)) := by
  refine String.Pos.Raw.isValid_iff_exists_append.mpr
    ⟨String.ofList (text.toList.take i), String.ofList (text.toList.drop i), ?_, ?_⟩
  · rw [← String.ofList_append, List.take_append_drop, String.ofList_toList]
  · rw [String.Pos.Raw.ext_iff, String.byteIdx_rawEndPos, ← String.utf8Len_toList,
      String.toList_ofList]

/-- Positions in order have offsets in order. -/
theorem utf8Len_take_le {text : String} {i j : Nat} (h : i ≤ j) :
    String.utf8Len (text.toList.take i) ≤ String.utf8Len (text.toList.take j) := by
  rw [← Nat.add_sub_cancel' h, List.take_add, String.utf8Len_append]
  exact Nat.le_add_right _ _

theorem checkedByteRange_of_positions (text : String) {start stop : Nat} (h : start ≤ stop) :
    checkedByteRange text (String.utf8Len (text.toList.take start))
        (String.utf8Len (text.toList.take stop))
      = .ok (byteRange text (String.utf8Len (text.toList.take start))
          (String.utf8Len (text.toList.take stop))) :=
  if_pos ⟨utf8Len_take_le h, isBoundary_utf8Len_take text start, isBoundary_utf8Len_take text stop⟩

theorem checkedCharAt_eq {text : String} {index : Nat} (h : index < text.length) :
    checkedCharAt text text.length index = .ok (charAt? text text.length index) := by
  unfold checkedCharAt charAt?
  by_cases hbytes : text.utf8ByteSize = text.length
  · have hboundary : IsBoundary text index := by
      have := isBoundary_utf8Len_take text index
      rwa [utf8Len_take_of_bytes_eq hbytes (Nat.le_of_lt h)] at this
    have hlt : index < text.utf8ByteSize := by rwa [hbytes]
    rw [if_pos hbytes, if_pos hbytes, checkedByteAt, dif_pos ⟨hlt, hboundary⟩, byteAt?,
      dif_pos hlt]
    rfl
  · rw [if_neg hbytes, if_neg hbytes]

theorem checkedCharRange_eq {text : String} {start stop : Nat} (h : start < stop)
    (hstop : stop ≤ text.length) :
    checkedCharRange text text.length start stop
      = .ok (charRange text text.length start stop) := by
  unfold checkedCharRange charRange
  by_cases hall : start = 0 ∧ stop = text.length
  · rw [if_pos hall, if_pos hall]
  · rw [if_neg hall, if_neg hall]
    by_cases hbytes : text.utf8ByteSize = text.length
    · have hrange := checkedByteRange_of_positions text (Nat.le_of_lt h)
      rw [utf8Len_take_of_bytes_eq hbytes (by omega), utf8Len_take_of_bytes_eq hbytes hstop]
        at hrange
      rw [if_pos hbytes, if_pos hbytes, hrange]
    · rw [if_neg hbytes, if_neg hbytes]
      refine bind_eq_ok_iff.mpr ⟨stop - start, checkedSub_of_le (Nat.le_of_lt h), ?_⟩
      refine bind_eq_ok_iff.mpr ⟨stop - start - 1, checkedSub_of_le (by omega), ?_⟩
      simp only [getElem?_byteOffsets_start (Nat.le_trans (Nat.le_of_lt h) hstop),
        getElem?_byteOffsets_stop h hstop, Option.getD_some]
      exact checkedByteRange_of_positions text (Nat.le_of_lt h)

end Text

namespace Rope

/-! ## Nodes -/

/-- The nodes of a rope, from the top down. -/
def nodes : Rope → List Rope
  | empty => []
  | leaf text length => [leaf text length]
  | window parent start length => window parent start length :: parent.nodes
  | concat left right length => concat left right length :: (left.nodes ++ right.nodes)

/-- What is stored in a node agrees with the nodes right below it. -/
def Consistent : Rope → Prop
  | empty => True
  | leaf text length => 0 < length ∧ length = text.length
  | window parent start length =>
    0 < length ∧ start + length ≤ parent.length ∧ length < parent.length ∧ parent.isWindow = false
  | concat left right length => 0 < length ∧ length = left.length + right.length

theorem mem_nodes_self {rope : Rope} (h : rope.isEmpty = false) : rope ∈ rope.nodes := by
  cases rope with
  | empty => exact absurd h (by simp [isEmpty])
  | leaf _ _ => exact List.mem_cons_self
  | window _ _ _ => exact List.mem_cons_self
  | concat _ _ _ => exact List.mem_cons_self

/-- A consistent node has characters. -/
theorem Consistent.length_pos {rope : Rope} (h : rope.Consistent) (hne : rope.isEmpty = false) :
    0 < rope.length := by
  cases rope with
  | empty => exact absurd hne (by simp [isEmpty])
  | leaf _ _ => exact h.1
  | window _ _ _ => exact h.1
  | concat _ _ _ => exact h.1

/-- Every node of a well-formed rope is consistent. -/
theorem WellFormed.consistent_of_mem_nodes {rope : Rope} (h : rope.WellFormed) :
    ∀ node ∈ rope.nodes, node.Consistent := by
  induction h with
  | empty => exact fun _ hmem => nomatch hmem
  | leaf nonempty =>
      intro node hmem
      obtain rfl := List.mem_singleton.mp hmem
      exact ⟨nonempty, rfl⟩
  | window _ parent_notWindow nonempty inside proper ih =>
      intro node hmem
      rcases List.mem_cons.mp hmem with rfl | hbelow
      · exact ⟨nonempty, inside, proper, parent_notWindow⟩
      · exact ih node hbelow
  | concat _ _ left_nonempty _ ihl ihr =>
      intro node hmem
      rcases List.mem_cons.mp hmem with rfl | hbelow
      · exact ⟨Nat.add_pos_left left_nonempty _, rfl⟩
      · rcases List.mem_append.mp hbelow with hleft | hright
        · exact ihl node hleft
        · exact ihr node hright

/-! ## Positions and views -/

/-- The descent to a position comes to no fault. -/
theorem checkedLocate_eq {rope : Rope} (h : rope.InBounds) (index : Nat) :
    rope.checkedLocate index = .ok (rope.locate? index) := by
  induction h generalizing index with
  | empty => rfl
  | @leaf text _ =>
      rw [checkedLocate, locate?]
      by_cases hi : text.length ≤ index
      · rw [if_pos hi, if_pos hi]
      · rw [if_neg hi, if_neg hi, Text.checkedCharAt_eq (Nat.not_le.mp hi)]
  | @window parent start length hparent inside ih =>
      rw [checkedLocate, locate?]
      by_cases hi : length ≤ index
      · rw [if_pos hi, if_pos hi]
      · -- the shifted position is still inside the parent
        have hlt : index + start < wordLimit := by
          have := hparent.length_lt
          omega
        rw [if_neg hi, if_neg hi, checkedAdd_of_lt hlt]
        exact ih (index + start)
  | @concat left right length _ _ _ _ ihl ihr =>
      rw [checkedLocate, locate?]
      by_cases hi : length ≤ index
      · rw [if_pos hi, if_pos hi]
      · rw [if_neg hi, if_neg hi]
        by_cases hsplit : index < left.length
        · rw [if_pos hsplit, if_pos hsplit, ihl]
        · rw [if_neg hsplit, if_neg hsplit, checkedSub_of_le (Nat.not_lt.mp hsplit)]
          exact ihr (index - left.length)

/-- Making a view comes to no fault. -/
theorem checkedSubSequence_eq {rope : Rope} (h : rope.InBounds) (start stop : Nat) :
    rope.checkedSubSequence start stop = .ok (rope.subSequence start stop) := by
  unfold checkedSubSequence subSequence
  by_cases hgt : start > stop
  · rw [if_pos hgt, if_pos hgt]
  · rw [if_neg hgt, if_neg hgt]
    by_cases hpast : stop > rope.length
    · rw [if_pos hpast, if_pos hpast]
    · rw [if_neg hpast, if_neg hpast]
      by_cases heq : start = stop
      · rw [if_pos heq, if_pos heq]
      · rw [if_neg heq, if_neg heq]
        by_cases hall : start = 0 ∧ stop = rope.length
        · rw [if_pos hall, if_pos hall]
        · rw [if_neg hall, if_neg hall]
          have hlength := h.length_lt
          have hstart : start + 0 < wordLimit := by omega
          have hsub : checkedSub stop start = .ok (stop - start) := checkedSub_of_le (by omega)
          cases h with
          | @window parent offset length hparent inside =>
              -- the view starts inside the parent, which has a word for its length
              have hlt : start + offset < wordLimit := by
                have := hparent.length_lt
                rw [Rope.length] at hpast
                omega
              simp only [checkedAdd_of_lt hlt, hsub]
              rfl
          | _ =>
              simp only [checkedAdd_of_lt hstart, hsub]
              rfl

/-! ## Pieces -/

/-- A range that ends inside a rope in bounds. -/
structure Pending.InBounds (range : Pending) : Prop where
  rope_inBounds : range.rope.InBounds
  stop_le : range.stop ≤ range.rope.length

/-- The ranges of the sides end inside them. -/
theorem sides_inBounds {left right : Rope} (hl : left.InBounds) (hr : right.InBounds)
    {start stop : Nat} (hstop : stop ≤ left.length + right.length) :
    ∀ range ∈ sides left right start stop, range.InBounds := by
  intro range hmem
  rcases List.mem_append.mp hmem with hleft | hright
  · obtain ⟨-, hleft⟩ := List.mem_ite_nil_right.mp hleft
    obtain rfl := List.mem_singleton.mp hleft
    exact ⟨hl, Nat.min_le_right _ _⟩
  · obtain ⟨-, hright⟩ := List.mem_ite_nil_right.mp hright
    obtain rfl := List.mem_singleton.mp hright
    exact ⟨hr, Nat.sub_le_iff_le_add'.mpr hstop⟩

/-- Taking the next piece comes to no fault and leaves ranges that end inside ropes in bounds. -/
theorem checkedNextPiece_inBounds {stack : List Pending} (h : ∀ range ∈ stack, range.InBounds) :
    ∃ next, checkedNextPiece stack = .ok next ∧
      ∀ piece rest, next = some (piece, rest) → ∀ range ∈ rest, range.InBounds := by
  fun_induction checkedNextPiece stack with
  | case1 => exact ⟨none, rfl, by simp⟩
  | case2 rope start stop rest hle ih => exact ih (List.forall_mem_cons.mp h).2
  | case3 start stop rest hlt ih => exact ih (List.forall_mem_cons.mp h).2
  | case4 start stop rest hlt text length =>
      obtain ⟨⟨hrope, hstop⟩, hrest⟩ := List.forall_mem_cons.mp h
      cases hrope with
      | leaf _ =>
          rw [Text.checkedCharRange_eq (Nat.not_le.mp hlt) hstop]
          refine ⟨_, rfl, fun piece rest' hnext => ?_⟩
          obtain ⟨-, rfl⟩ := Prod.mk.inj (Option.some.inj hnext)
          exact hrest
  | case5 start stop rest hlt parent offset length ih =>
      obtain ⟨⟨hrope, hstop⟩, hrest⟩ := List.forall_mem_cons.mp h
      cases hrope with
      | window hparent inside =>
          -- both ends of the shifted range are still inside the parent
          have hlast : stop + offset ≤ parent.length := by
            simp only [Rope.length] at hstop
            omega
          have hlength := hparent.length_lt
          rw [checkedAdd_of_lt (by omega), checkedAdd_of_lt (by omega)]
          exact ih _ _ (List.forall_mem_cons.mpr ⟨⟨hparent, hlast⟩, hrest⟩)
  | case6 start stop rest hlt left right length fault hsides =>
      rw [checkedSides_eq] at hsides
      exact absurd hsides (by simp)
  | case7 start stop rest hlt left right length ranges hsides _ ih =>
      obtain ⟨⟨hrope, hstop⟩, hrest⟩ := List.forall_mem_cons.mp h
      obtain rfl := of_checkedSides hsides
      cases hrope with
      | concat hl hr _ covered =>
          have hranges : ∀ range ∈ sides left right start stop, range.InBounds :=
            sides_inBounds hl hr (Nat.le_trans hstop covered)
          exact ih (List.forall_mem_append.mpr ⟨hranges, hrest⟩)

/-- Taking in the pieces of a stack comes to no fault. -/
theorem checkedFoldPieces_eq {α : Type} (f : α → String → α) (acc : α) {stack : List Pending}
    (h : ∀ range ∈ stack, range.InBounds) :
    checkedFoldPieces f acc stack = .ok (foldPieces f acc stack) := by
  fun_induction checkedFoldPieces f acc stack with
  | case1 acc stack fault hfault =>
      obtain ⟨next, hnext, -⟩ := checkedNextPiece_inBounds h
      exact nomatch hfault.symm.trans hnext
  | case2 acc stack hnone => rw [foldPieces_of_none f acc (of_checkedNextPiece hnone)]
  | case3 acc stack piece rest hsome _ ih =>
      obtain ⟨next, hnext, hrest⟩ := checkedNextPiece_inBounds h
      obtain rfl := Except.ok.inj (hsome.symm.trans hnext)
      rw [foldPieces_of_some f acc (of_checkedNextPiece hsome)]
      exact ih (hrest piece rest rfl)

/-- Whatever position, view or range a reader is asked for, it does without a fault what it does
    without checks. -/
structure ReadsSafely (rope : Rope) : Prop where
  locate : ∀ index : Nat, rope.checkedLocate index = .ok (rope.locate? index)
  subSequence : ∀ start stop : Nat,
    rope.checkedSubSequence start stop = .ok (rope.subSequence start stop)
  foldPieces : ∀ {α : Type} (f : α → String → α) (acc : α) (start stop : Nat),
    stop ≤ rope.length →
      checkedFoldPieces f acc [⟨rope, start, stop⟩] = .ok (foldPieces f acc [⟨rope, start, stop⟩])

theorem InBounds.readsSafely {rope : Rope} (h : rope.InBounds) : ReadsSafely rope := by
  constructor
  case locate => exact checkedLocate_eq h
  case subSequence => exact checkedSubSequence_eq h
  case foldPieces =>
    intro α f acc start stop hstop
    refine checkedFoldPieces_eq f acc fun range hmem => ?_
    obtain rfl := List.mem_singleton.mp hmem
    exact ⟨h, hstop⟩

/-- **Reading a rope is safe, and ropes stay consistent as long as their texts fit.**  With exact
    lengths every node of every rope agrees with the nodes right below it.  In words no reading adds
    past the last word, subtracts below zero, or addresses a text past its end or inside a
    character; and if all texts of the program have fewer characters than there are words, the
    nodes agree with each other there too. -/
theorem ropes_safe_and_consistent (program : List Call)
    (htexts : ∀ text : String, .ofString text ∈ program → text.length < wordLimit) :
    (∀ rope : Rope, some rope ∈ run onRopes program → ∀ node ∈ rope.nodes, node.Consistent) ∧
    (∀ rope : Rope, some rope ∈ run onWords program → ReadsSafely rope) ∧
    ((∀ cs : List Char, some cs ∈ run onLists program → cs.length < wordLimit) →
      ∀ rope : Rope, some rope ∈ run onWords program → ∀ node ∈ rope.nodes, node.Consistent) := by
  have hexact : ∀ rope : Rope, some rope ∈ run onRopes program →
      ∀ node ∈ rope.nodes, node.Consistent :=
    fun rope h => (wellFormed_of_mem_run h).consistent_of_mem_nodes
  refine ⟨hexact, fun rope h => (inBounds_of_mem_run htexts h).readsSafely, ?_⟩
  intro hlt rope h
  rw [run_onWords_eq hlt] at h
  exact hexact rope h

/-- A view of a view across the seam of a join, with characters of two bytes on one side. -/
theorem ropes_safe_and_consistent_across_a_seam :
    let program : List Call :=
      [.ofString "a\u00e9\u00e9", .ofString "bcd", .append 0 1, .subSequence 2 1 5,
        .subSequence 3 1 3]
    ∃ rope : Rope, (run onWords program)[4]? = some (some rope) ∧
      rope.checkedLocate 0 = .ok (some '\u00e9') ∧ rope.checkedLocate 1 = .ok (some 'b') ∧
      ∀ node ∈ rope.nodes, node.Consistent := by
  intro program
  have htexts : ∀ text : String, .ofString text ∈ program → text.length < wordLimit := by
    intro text hmem
    have hcases : text = "a\u00e9\u00e9" ∨ text = "bcd" := by simpa [program] using hmem
    rcases hcases with rfl | rfl
    · decide
    · decide
  have hall : (run onLists program).all
      (Option.all fun cs => decide (cs.length < wordLimit)) = true := by decide
  have hlt : ∀ cs : List Char, some cs ∈ run onLists program → cs.length < wordLimit := by
    intro cs hmem
    exact of_decide_eq_true (List.all_eq_true.mp hall _ hmem)
  obtain ⟨-, hsafe, hconsistent⟩ := ropes_safe_and_consistent program htexts
  obtain ⟨rope, hrope⟩ : ∃ rope : Rope, (run onWords program)[4]? = some (some rope) := ⟨_, rfl⟩
  have hmem := List.mem_of_getElem? hrope
  have hwf : rope.WellFormed := wellFormed_of_mem_run (run_onWords_eq hlt ▸ hmem)
  have hcontents : rope.contents = ['\u00e9', 'b'] := by
    obtain rfl := Option.some.inj (Option.some.inj hrope)
    decide
  refine ⟨rope, hrope, ?_, ?_, hconsistent hlt rope hmem⟩
  · rw [(hsafe rope hmem).locate, locate?_eq hwf, hcontents]
    rfl
  · rw [(hsafe rope hmem).locate, locate?_eq hwf, hcontents]
    rfl

/-- With as many joins as a word has bits there is a join without length. -/
theorem doublings_not_consistent :
    ∃ rope : Rope, (run onWords (doublings 'a' 64))[64]? = some (some rope) ∧
      rope.length = 0 ∧ ∃ node ∈ rope.nodes, ¬ node.Consistent := by
  obtain ⟨rope, hrope, hne, hlength⟩ := exists_doubling_without_length 'a'
  refine ⟨rope, hrope, hlength, rope, mem_nodes_self hne, fun hconsistent => ?_⟩
  have hpos := hconsistent.length_pos hne
  rw [hlength] at hpos
  exact absurd hpos (Nat.lt_irrefl 0)

end Rope

end PatternAlgebra
