import PatternAlgebra.Proofs.Rope.Overflow
/-!
# Ropes behave as lists of characters

A program that never makes a text of more characters than there are words makes, in words, the ropes
that it makes with exact lengths, and those agree with the lists of the program.  So as long as all
lists are that short, no reading can tell a rope from its list, and comparing ropes is comparing
lists.

There are fewer texts than there are lists: a list may be too long for a text although a word holds
its length.  Such a rope can still be read piece by piece and character by character; what cannot be
had is all of it in one text.
-/

namespace PatternAlgebra.Rope

/-- **Ropes behave as lists.**  As long as all lists of a program have fewer characters than there
    are words, the program has a rope exactly where it has a list; every rope shows its list; and
    two ropes, of one program or of two, are equal exactly when their lists are, in which case they
    hand the same length and the same characters to a hash. -/
theorem ropes_behave_as_lists (program other : List Call)
    (hprogram : ∀ cs : List Char, some cs ∈ run onLists program → cs.length < wordLimit)
    (hother : ∀ cs : List Char, some cs ∈ run onLists other → cs.length < wordLimit) :
    List.Forall₂ (Option.Rel Shows) (run onWords program) (run onLists program) ∧
    ∀ (i j : Nat) (a b : Rope) (cs ds : List Char),
      (run onWords program)[i]? = some (some a) → (run onLists program)[i]? = some (some cs) →
      (run onWords other)[j]? = some (some b) → (run onLists other)[j]? = some (some ds) →
      ((a == b) = true ↔ cs = ds) ∧
        (cs = ds → a.length = b.length ∧ a.chars = b.chars ∧ hash a = hash b) := by
  rw [run_onWords_eq hprogram, run_onWords_eq hother]
  refine ⟨(related_run program).imp fun _ _ h => ?_, ?_⟩
  · cases h with
    | none => exact .none
    | some h => exact .some h.shows
  · intro i j a b cs ds ha hcs hb hds
    obtain ⟨hwa, rfl⟩ := represents_of_run ha hcs
    obtain ⟨hwb, rfl⟩ := represents_of_run hb hds
    refine ⟨beq_iff hwa hwb, fun heq => ?_⟩
    have hlength : a.length = b.length := by rw [hwa.length_eq, hwb.length_eq, heq]
    have hchars : a.chars = b.chars := by rw [chars_eq hwa, chars_eq hwb, heq]
    refine ⟨hlength, hchars, ?_⟩
    show mixHash (hash a.length) (hash (a.chars.map Char.toNat))
      = mixHash (hash b.length) (hash (b.chars.map Char.toNat))
    rw [hlength, hchars]

/-- A view across the seam of a join, beside a rope made from the same characters. -/
theorem ropes_behave_as_lists_across_a_seam :
    let program : List Call :=
      [.ofString "a\u00e9", .ofString "bc", .append 0 1, .subSequence 2 1 3, .subSequence 3 0 1,
        .ofChar '\u00e9', .subSequence 2 3 9]
    (∀ cs : List Char, some cs ∈ run onLists program → cs.length < wordLimit) ∧
    ∃ a b : Rope,
      (run onWords program)[4]? = some (some a) ∧ (run onWords program)[5]? = some (some b) ∧
      (run onLists program)[4]? = some (some ['\u00e9']) ∧ (a == b) = true ∧ hash a = hash b := by
  intro program
  have hlists : run onLists program
      = [some ['a', '\u00e9'], some ['b', 'c'], some ['a', '\u00e9', 'b', 'c'],
        some ['\u00e9', 'b'], some ['\u00e9'], some ['\u00e9'], none] := by decide
  have hall : ∀ list ∈ run onLists program, ∀ cs ∈ list, cs.length < wordLimit := by
    rw [hlists]
    decide
  have hshort : ∀ cs : List Char, some cs ∈ run onLists program → cs.length < wordLimit :=
    fun cs hcs => hall _ hcs cs rfl
  have hlist4 : (run onLists program)[4]? = some (some ['\u00e9']) := by rw [hlists]; rfl
  have hlist5 : (run onLists program)[5]? = some (some ['\u00e9']) := by rw [hlists]; rfl
  obtain ⟨hequal, hhash⟩ :=
    (ropes_behave_as_lists program program hshort hshort).2 4 5 _ _ _ _ rfl hlist4 rfl hlist5
  exact ⟨hshort, _, _, rfl, rfl, hlist4, hequal.mpr rfl, (hhash rfl).2.2⟩

/-- One doubling less than it takes to have more characters than there are words: all lengths are
    right, and the last rope is not written out. -/
theorem doublings_not_written_out :
    (∀ cs : List Char, some cs ∈ run onLists (doublings 'a' 63) → cs.length < wordLimit) ∧
    ∃ (rope : Rope) (cs : List Char),
      (run onWords (doublings 'a' 63))[63]? = some (some rope) ∧
      (run onLists (doublings 'a' 63))[63]? = some (some cs) ∧
      rope.length = cs.length ∧ rope.checkedRender = .error .capacity := by
  constructor
  · intro cs hcs
    have hnone : ∀ cs : List Char, some cs ∈ ([] : List (Option (List Char))) → cs.length ≤ 1 :=
      fun _ hmem => nomatch hmem
    have hle := length_runAfter_le (doublings 'a' 63) (Nat.le_refl 1) hnone
      (fun text hmem => absurd hmem (ofString_not_mem_doublings text)) cs hcs
    rw [appends_doublings] at hle
    exact Nat.lt_of_le_of_lt hle (by decide)
  · obtain ⟨-, hlength⟩ := doubled_onWords 'a' 63
    have hlarge : ¬ 2 ^ 63 % wordLimit ≤ maxTextBytes := by decide
    refine ⟨_, _, getElem?_run_doublings onWords 'a' 63, getElem?_run_doublings onLists 'a' 63,
      ?_, ?_⟩
    · rw [hlength, length_doubled_onLists]
      decide
    · rw [checkedRender, hlength, if_neg hlarge]

end PatternAlgebra.Rope
