import PatternAlgebra.Proofs.Construction.Oversized
import PatternAlgebra.Proofs.Rope.Words
/-!
# Lengths that no word holds

A join stores the sum of two lengths as a word, so the length of a rope in words is right only if a
word holds it.  Whether it does depends on the texts of the program alone: as long as all of them
have fewer characters than there are words, no sum is ever cut off, and the program makes in words
the ropes that it makes with exact lengths.  As soon as one of them has more, its stored length is
wrong, since it is a word.

Operands are shared, so a text may double with every join.  Programs with few joins are safe for
that reason, and programs with as many joins as a word has bits are not.
-/

namespace PatternAlgebra

namespace Rope

/-! ## Programs in words -/

/-- Every rope of a program in words has the length of its text. -/
def LengthsExact (program : List Call) : Prop :=
  List.Forall₂ (Option.Rel fun rope cs => rope.length = cs.length) (run onWords program)
    (run onLists program)

/-- A call in words makes what it makes with exact lengths, if a word holds the length. -/
theorem value_onWords_eq {ropes : List (Option Rope)} {lists : List (Option (List Char))}
    (h : List.Forall₂ Related ropes lists) {call : Call}
    (hlt : ∀ cs : List Char, call.value onLists lists = some cs → cs.length < wordLimit) :
    call.value onWords ropes = call.value onRopes ropes := by
  cases call with
  | append a b =>
      have hx := related_getElem?_join h a
      have hy := related_getElem?_join h b
      simp only [Call.value] at hlt ⊢
      generalize ropes[a]?.join = x, lists[a]?.join = xs at hx hlt ⊢
      generalize ropes[b]?.join = y, lists[b]?.join = ys at hy hlt ⊢
      cases hx with
      | none => rfl
      | @some left cs ha =>
          cases hy with
          | none => rfl
          | @some right ds hb =>
              have hsum : (cs ++ ds).length < wordLimit := hlt (cs ++ ds) rfl
              rw [List.length_append, ← ha.contents_eq, ← hb.contents_eq, ← ha.wellFormed.length_eq,
                ← hb.wellFormed.length_eq] at hsum
              exact congrArg some (append_eq_appendExactly hsum)
  -- no other call computes with words
  | _ => rfl

theorem runAfter_onWords_eq (program : List Call) {ropes : List (Option Rope)}
    {lists : List (Option (List Char))} (h : List.Forall₂ Related ropes lists)
    (hlt : ∀ cs : List Char, some cs ∈ runAfter onLists lists program → cs.length < wordLimit) :
    runAfter onWords ropes program = runAfter onRopes ropes program := by
  induction program generalizing ropes lists with
  | nil => rfl
  | cons call calls ih =>
      have hcall : call.value onWords ropes = call.value onRopes ropes := by
        refine value_onWords_eq h fun cs hcs => hlt cs (mem_runAfter_of_mem calls ?_)
        rw [hcs]
        exact List.mem_append_right _ (List.mem_singleton.mpr rfl)
      rw [runAfter, runAfter, hcall]
      exact ih (List.rel_append h (.cons (related_value h call) .nil)) hlt

/-- A program without texts too long for words makes in words the ropes with exact lengths. -/
theorem run_onWords_eq {program : List Call}
    (hlt : ∀ cs : List Char, some cs ∈ run onLists program → cs.length < wordLimit) :
    run onWords program = run onRopes program :=
  runAfter_onWords_eq program .nil hlt

theorem lengthsExact_of_lt {program : List Call}
    (hlt : ∀ cs : List Char, some cs ∈ run onLists program → cs.length < wordLimit) :
    LengthsExact program := by
  rw [LengthsExact, run_onWords_eq hlt]
  refine (related_run program).imp fun _ _ h => ?_
  cases h with
  | none => exact .none
  | some h => exact .some h.shows.length_eq

/-! ## Few joins -/

/-- Whether a call joins two texts. -/
def Call.isAppend : Call → Bool
  | append _ _ => true
  | _ => false

/-- The number of joins of a program. -/
def appends (program : List Call) : Nat := program.countP Call.isAppend

/-- A join makes at most twice as many characters as there are in the longest text so far. -/
theorem length_value_le {bound : Nat} (hbound : 1 ≤ bound) {earlier : List (Option (List Char))}
    (h : ∀ cs : List Char, some cs ∈ earlier → cs.length ≤ bound) {call : Call}
    (htext : ∀ text : String, call = .ofString text → text.length ≤ bound) {made : List Char}
    (hmade : call.value onLists earlier = some made) :
    made.length ≤ if call.isAppend then 2 * bound else bound := by
  cases call with
  | empty =>
      obtain rfl := Option.some.inj hmade
      exact Nat.zero_le _
  | ofString text =>
      obtain rfl := Option.some.inj hmade
      show text.toList.length ≤ bound
      rw [String.length_toList]
      exact htext text rfl
  | ofChar c =>
      obtain rfl := Option.some.inj hmade
      exact hbound
  | append a b =>
      obtain ⟨x, hx, hmade⟩ := Option.bind_eq_some_iff.mp hmade
      obtain ⟨y, hy, hmade⟩ := Option.bind_eq_some_iff.mp hmade
      obtain rfl := Option.some.inj hmade
      have hxle := h x (mem_of_getElem?_join_eq_some hx)
      have hyle := h y (mem_of_getElem?_join_eq_some hy)
      show (x ++ y).length ≤ 2 * bound
      rw [List.length_append]
      omega
  | subSequence a start stop =>
      obtain ⟨x, hx, hmade⟩ := Option.bind_eq_some_iff.mp hmade
      have hslice : slice? x start stop = some made := hmade
      unfold slice? at hslice
      split at hslice
      · obtain rfl := Option.some.inj hslice
        have hxle := h x (mem_of_getElem?_join_eq_some hx)
        show ((x.drop start).take (stop - start)).length ≤ bound
        rw [List.length_take, List.length_drop]
        omega
      · exact nomatch hslice

theorem length_runAfter_le (program : List Call) {bound : Nat} (hbound : 1 ≤ bound)
    {earlier : List (Option (List Char))}
    (h : ∀ cs : List Char, some cs ∈ earlier → cs.length ≤ bound)
    (htexts : ∀ text : String, .ofString text ∈ program → text.length ≤ bound) :
    ∀ cs : List Char, some cs ∈ runAfter onLists earlier program →
      cs.length ≤ bound * 2 ^ appends program := by
  induction program generalizing earlier bound with
  | nil => simpa [runAfter, appends] using h
  | cons call calls ih =>
      have hle : bound ≤ if call.isAppend then 2 * bound else bound := by
        split
        · omega
        · exact Nat.le_refl bound
      have hgrown : (if call.isAppend then 2 * bound else bound) * 2 ^ appends calls
          = bound * 2 ^ appends (call :: calls) := by
        rw [appends, appends, List.countP_cons]
        split
        · rw [Nat.pow_succ, Nat.mul_comm 2 bound, Nat.mul_assoc, Nat.mul_comm 2]
        · rw [Nat.add_zero]
      rw [runAfter, ← hgrown]
      refine ih (Nat.le_trans hbound hle) (fun cs hmem => ?_) (fun text hmem => ?_)
      · rcases List.mem_append.mp hmem with hold | hnew
        · exact Nat.le_trans (h cs hold) hle
        · refine length_value_le hbound h (fun text htext => ?_) (List.mem_singleton.mp hnew).symm
          exact htexts text (List.mem_cons.mpr (.inl htext.symm))
      · exact Nat.le_trans (htexts text (List.mem_cons_of_mem _ hmem)) hle

/-! ## Doubling -/

/-- A text joined to itself, and the result to itself, so many times. -/
def doubled {α : Type} (ops : TextOps α) (x : α) : Nat → α
  | 0 => x
  | n + 1 => ops.append (doubled ops x n) (doubled ops x n)

/-- A character, and then so many joins of the last text to itself. -/
def doublings (c : Char) (n : Nat) : List Call :=
  .ofChar c :: (List.range n).map fun i => .append i i

theorem ofString_not_mem_doublings {c : Char} {n : Nat} (text : String) :
    .ofString text ∉ doublings c n := by
  simp [doublings]

theorem appends_doublings (c : Char) (n : Nat) : appends (doublings c n) = n := by
  have hall : ∀ call ∈ (List.range n).map fun i => Call.append i i, call.isAppend = true := by
    intro call hmem
    obtain ⟨i, -, rfl⟩ := List.mem_map.mp hmem
    rfl
  rw [appends, doublings, List.countP_cons_of_neg (by simp [Call.isAppend]),
    List.countP_eq_length.mpr hall, List.length_map, List.length_range]

theorem runAfter_append {α : Type} {ops : TextOps α} (earlier : List (Option α))
    (first second : List Call) :
    runAfter ops earlier (first ++ second) = runAfter ops (runAfter ops earlier first) second := by
  induction first generalizing earlier with
  | nil => rfl
  | cons call calls ih => exact ih _

theorem run_doublings {α : Type} (ops : TextOps α) (c : Char) (n : Nat) :
    run ops (doublings c n)
      = (List.range (n + 1)).map fun i => some (doubled ops (ops.ofChar c) i) := by
  induction n with
  | zero => rfl
  | succ n ih =>
      have hlast : doublings c (n + 1) = doublings c n ++ [.append n n] := by
        rw [doublings, List.range_succ, List.map_append]
        rfl
      have hoperand : ((List.range (n + 1)).map
          fun i => some (doubled ops (ops.ofChar c) i))[n]?.join
            = some (doubled ops (ops.ofChar c) n) := by
        rw [List.getElem?_map, List.getElem?_range (Nat.lt_succ_self n)]
        rfl
      rw [run] at ih ⊢
      rw [hlast, runAfter_append, ih, runAfter, runAfter, Call.value, hoperand,
        List.range_succ (n := n + 1), List.map_append]
      rfl

/-- The last text of a doubling program. -/
theorem getElem?_run_doublings {α : Type} (ops : TextOps α) (c : Char) (n : Nat) :
    (run ops (doublings c n))[n]? = some (some (doubled ops (ops.ofChar c) n)) := by
  rw [run_doublings, List.getElem?_map, List.getElem?_range (Nat.lt_succ_self n), Option.map_some]

theorem length_doubled_onLists (c : Char) (n : Nat) :
    (doubled onLists (onLists.ofChar c) n).length = 2 ^ n := by
  induction n with
  | zero => rfl
  | succ n ih =>
      show (doubled onLists _ n ++ doubled onLists _ n).length = _
      rw [List.length_append, ih, Nat.pow_succ]
      omega

/-- In words the length of a doubled text is what a word holds of it, and it never counts as
    empty. -/
theorem doubled_onWords (c : Char) (n : Nat) :
    (doubled onWords (onWords.ofChar c) n).isEmpty = false ∧
      (doubled onWords (onWords.ofChar c) n).length = 2 ^ n % wordLimit := by
  induction n with
  | zero =>
      show (ofChar c).isEmpty = false ∧ (ofChar c).length = _
      rw [(wellFormed_ofChar c).isEmpty_eq, (wellFormed_ofChar c).length_eq, contents_ofChar]
      exact ⟨rfl, rfl⟩
  | succ n ih =>
      obtain ⟨hne, hlength⟩ := ih
      show (doubled onWords _ n ++ doubled onWords _ n).isEmpty = false ∧
        (doubled onWords _ n ++ doubled onWords _ n).length = _
      rw [append_of_not_isEmpty hne hne]
      refine ⟨rfl, ?_⟩
      rw [length, addWord, hlength, ← Nat.add_mod, Nat.pow_succ, Nat.mul_two]

/-- As many joins as a word has bits make a rope that is stored without length but is not the empty
    one. -/
theorem exists_doubling_without_length (c : Char) :
    ∃ rope : Rope, (run onWords (doublings c 64))[64]? = some (some rope) ∧
      rope.isEmpty = false ∧ rope.length = 0 := by
  obtain ⟨hne, hlength⟩ := doubled_onWords c 64
  exact ⟨_, getElem?_run_doublings onWords c 64, hne, hlength⟩

/-! ## When lengths are exact -/

/-- **Lengths in words are exact as long as the texts of a program fit.**  The ropes of a program
    have the lengths of its texts exactly if all of these have fewer characters than there are
    words, and then they are the ropes that the program makes with exact lengths.  Fewer joins than
    a word has bits, less the bits of the longest text that is given, are never too many.  The same
    is true of the text of a node: as long as its length is a word, it is right exactly if there are
    fewer characters than words. -/
theorem lengthsExact_iff (program : List Call)
    (htexts : ∀ text : String, .ofString text ∈ program → text.length < wordLimit) :
    (LengthsExact program ↔
      ∀ cs : List Char, some cs ∈ run onLists program → cs.length < wordLimit) ∧
    (LengthsExact program → run onWords program = run onRopes program) ∧
    (∀ bits : Nat, (∀ text : String, .ofString text ∈ program → text.length ≤ 2 ^ bits) →
      bits + appends program < 64 → LengthsExact program) ∧
    ∀ n : Node, Script.Constructible n → n.profile.text.length < wordLimit →
      (n.profile.text.length = n.profile.text.contents.length ↔
        n.profile.text.contents.length < wordLimit) := by
  have hshort : LengthsExact program →
      ∀ cs : List Char, some cs ∈ run onLists program → cs.length < wordLimit := by
    intro hexact cs hcs
    -- a rope stands where the text does, and whatever is stored in it is a word
    obtain ⟨i, hi⟩ := List.mem_iff_getElem?.mp hcs
    have hrelated := related_getElem?_join hexact i
    rw [hi] at hrelated
    generalize hrope : (run onWords program)[i]?.join = made at hrelated
    cases hrelated with
    | @some rope _ hlength =>
        rw [← hlength]
        exact (inBounds_of_mem_run htexts (mem_of_getElem?_join_eq_some hrope)).length_lt
  refine ⟨⟨hshort, lengthsExact_of_lt⟩, fun hexact => run_onWords_eq (hshort hexact), ?_, ?_⟩
  · intro bits hbits hfew
    have hnone : ∀ cs : List Char, some cs ∈ ([] : List (Option (List Char))) →
        cs.length ≤ 2 ^ bits := fun _ hmem => nomatch hmem
    refine lengthsExact_of_lt fun cs hcs => ?_
    have hle := length_runAfter_le program Nat.one_le_two_pow hnone hbits cs hcs
    calc cs.length ≤ 2 ^ bits * 2 ^ appends program := hle
      _ = 2 ^ (bits + appends program) := (Nat.pow_add 2 bits (appends program)).symm
      _ < 2 ^ 64 := Nat.pow_lt_pow_right (by decide) hfew
  · intro n hn hword
    refine ⟨fun heq => heq ▸ hword, fun hlt => ?_⟩
    exact (hn.wellBuilt.text_wellSized hlt).length_eq

/-- As many joins as leave room for one bit. -/
theorem lengthsExact_iff_of_doublings :
    (∀ text : String, .ofString text ∈ doublings 'a' 63 → text.length < wordLimit) ∧
      LengthsExact (doublings 'a' 63) := by
  have htexts : ∀ text : String, .ofString text ∉ doublings 'a' 63 := ofString_not_mem_doublings
  have hshort : ∀ text : String, .ofString text ∈ doublings 'a' 63 → text.length < wordLimit :=
    fun text hmem => absurd hmem (htexts text)
  have hfew : 0 + appends (doublings 'a' 63) < 64 := by
    rw [appends_doublings]
    decide
  refine ⟨hshort, (lengthsExact_iff _ hshort).2.2.1 0 (fun text hmem => ?_) hfew⟩
  exact absurd hmem (htexts text)

/-- The last text of one doubling more has as many characters as there are words, and so has the
    text of a group: the stored lengths are zero, and neither rope is the empty one. -/
theorem doublings_overflow :
    (∃ (rope : Rope) (cs : List Char),
      (run onWords (doublings 'a' 64))[64]? = some (some rope) ∧
      (run onLists (doublings 'a' 64))[64]? = some (some cs) ∧
      cs.length = wordLimit ∧ rope.length = 0 ∧ rope.isEmpty = false) ∧
    let n : Node := .group (.capture (Group.crowd 15).toExpr)
    Script.Constructible n ∧ n.profile.text.contents.length = wordLimit ∧
      n.profile.text.length = 0 ∧ n.profile.text.isEmpty = false := by
  constructor
  · obtain ⟨rope, hrope, hne, hlength⟩ := exists_doubling_without_length 'a'
    exact ⟨rope, _, hrope, getElem?_run_doublings onLists 'a' 64, length_doubled_onLists 'a' 64,
      hlength, hne⟩
  · have hcrowd := Group.brimful_crowd
    obtain ⟨hlength, hne, -⟩ := hcrowd.checkedRender_capture
    exact ⟨hcrowd.constructible_capture, hcrowd.length_contents_capture, hlength, hne⟩

end Rope

end PatternAlgebra
