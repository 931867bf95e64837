import PatternAlgebra.Proofs.Rope.Reading
/-!
# Reading on until nothing is left

A turn of the reader may put two ranges in the place of one, and a range of a view gives way to a
range of a larger rope, so neither the ranges on the stack nor the characters in reach get fewer.
What gets fewer are the nodes of the ropes on the stack.  They bound the turns that it takes to read
a stack to its end, and how often it can be asked for a piece.

Everything that a stack asks for comes out on the way, once and in order.
-/

namespace PatternAlgebra.Rope

/-- Taking turns until the stack is empty takes so many turns and yields these pieces. -/
inductive Empties : List Pending → Nat → List String → Prop where
  | done : Empties [] 0 []
  | turn {top : Pending} {rest : List Pending} {turns : Nat} {pieces : List String}
      (below : Empties (top.turn.2 ++ rest) turns pieces) :
      Empties (top :: rest) (turns + 1) (top.turn.1.toList ++ pieces)

/-- Asking for the next piece until there is none yields these pieces. -/
inductive Drains : List Pending → List String → Prop where
  | done {stack : List Pending} (none_left : nextPiece stack = none) : Drains stack []
  | piece {stack rest : List Pending} {piece : String} {pieces : List String}
      (next : nextPiece stack = some (piece, rest)) (below : Drains rest pieces) :
      Drains stack (piece :: pieces)

/-- Turns come to an end, after as many as there are nodes on the stack at the latest. -/
theorem exists_empties (stack : List Pending) :
    ∃ turns pieces, Empties stack turns pieces ∧ turns ≤ stackWeight stack := by
  induction hw : stackWeight stack using Nat.strong_induction_on generalizing stack with
  | _ weight ih =>
      cases stack with
      | nil => exact ⟨0, [], .done, Nat.zero_le _⟩
      | cons top rest =>
          -- a view may give way to a larger range, but never to a rope with as many nodes
          have hlt : stackWeight (top.turn.2 ++ rest) < weight := hw ▸ stackWeight_turn_lt top rest
          obtain ⟨turns, pieces, hbelow, hle⟩ := ih _ hlt (top.turn.2 ++ rest) rfl
          exact ⟨turns + 1, _, hbelow.turn, Nat.succ_le_of_lt (Nat.lt_of_le_of_lt hle hlt)⟩

/-- Stacks with the same next piece yield the same pieces. -/
theorem Drains.of_nextPiece_eq {stack stack' : List Pending} {pieces : List String}
    (hnext : nextPiece stack = nextPiece stack') (h : Drains stack' pieces) :
    Drains stack pieces := by
  cases h with
  | done none_left => exact .done (hnext.trans none_left)
  | piece next below => exact .piece (hnext.trans next) below

/-- Whether turns are counted or pieces, the pieces are the same. -/
theorem Empties.drains {stack : List Pending} {turns : Nat} {pieces : List String}
    (h : Empties stack turns pieces) : Drains stack pieces := by
  induction h with
  | done => exact .done (by rw [nextPiece])
  | @turn top rest turns pieces _ ih =>
      have hnext := nextPiece_cons top rest
      cases hturn : top.turn.1 with
      | none =>
          rw [hturn] at hnext
          exact ih.of_nextPiece_eq hnext
      | some piece =>
          rw [hturn] at hnext
          exact .piece hnext ih

/-- A loop over a stack takes in what draining the stack yields. -/
theorem Drains.foldPieces_eq {α : Type} (f : α → String → α) (acc : α) {stack : List Pending}
    {pieces : List String} (h : Drains stack pieces) :
    foldPieces f acc stack = pieces.foldl f acc := by
  induction h generalizing acc with
  | done none_left => exact foldPieces_of_none f acc none_left
  | piece next _ ih => rw [foldPieces_of_some f acc next, ih, List.foldl_cons]

/-- A stack yields no other pieces than those that a loop over it collects. -/
theorem Drains.eq_of_foldPieces_eq {stack : List Pending} {pieces pieces' : List String}
    (h : Drains stack pieces)
    (h' : ∀ {α : Type} (f : α → String → α) (acc : α),
      foldPieces f acc stack = pieces'.foldl f acc) : pieces = pieces' := by
  -- collected in a list, the last one in front
  have hcollected : pieces.foldl (fun done piece => piece :: done) []
      = pieces'.foldl (fun done piece => piece :: done) [] := by
    rw [← h.foldPieces_eq, h']
  simpa using hcollected

/-- **A stack is read to its end, once and in order.**  The turns end, and there are at most as many
    as nodes on the stack.  Asking for the next piece until there is none yields some pieces and no
    others, which are what the loop takes in.  None of them is without characters, and one after
    another they are the characters of the ranges on the stack, from the top to the bottom. -/
theorem stack_drains_in_order {stack : List Pending} (h : ∀ range ∈ stack, range.Inside) :
    ∃ (turns : Nat) (pieces : List String),
      Empties stack turns pieces ∧ turns ≤ stackWeight stack ∧
      (∀ yielded : List String, Drains stack yielded ↔ yielded = pieces) ∧
      (∀ {α : Type} (f : α → String → α) (acc : α),
        foldPieces f acc stack = pieces.foldl f acc) ∧
      (∀ piece ∈ pieces, piece.toList ≠ []) ∧
      pieces.flatMap String.toList = stack.flatMap fun range =>
        (range.rope.contents.drop range.start).take (range.stop - range.start) := by
  obtain ⟨turns, pieces, hempties, hturns⟩ := exists_empties stack
  obtain ⟨pieces', hfold, hne, hcontents⟩ := foldPieces_eq_foldl stack h
  obtain rfl := hempties.drains.eq_of_foldPieces_eq hfold
  refine ⟨turns, pieces, hempties, hturns, fun yielded => ⟨?_, ?_⟩, hfold, hne, hcontents⟩
  · exact fun hyielded => hyielded.eq_of_foldPieces_eq hfold
  · rintro rfl
    exact hempties.drains

/-- A view across the seam of a join, a range that ends before it starts, and the end of a text. -/
theorem stack_drains_in_order_across_a_seam :
    let joined : Rope := ofString "a\u00e9" ++ ofString "bcd"
    let stack : List Pending :=
      [⟨window joined 1 3, 0, 2⟩, ⟨joined, 4, 2⟩, ⟨ofString "x\u00e9z", 1, 3⟩]
    ∃ pieces : List String, Drains stack pieces ∧
      pieces.flatMap String.toList = ['\u00e9', 'b', '\u00e9', 'z'] := by
  intro joined stack
  have hjoined : joined.WellFormed :=
    wellFormed_append (wellFormed_ofString _) (wellFormed_ofString _) (by decide)
  have hwindow : (window joined 1 3).WellFormed :=
    .window hjoined rfl (by decide) (by decide) (by decide)
  have hinside : ∀ range ∈ stack, range.Inside := by
    refine List.forall_mem_cons.mpr ⟨⟨hwindow, by decide⟩, ?_⟩
    refine List.forall_mem_cons.mpr ⟨⟨hjoined, by decide⟩, ?_⟩
    exact List.forall_mem_singleton.mpr ⟨wellFormed_ofString "x\u00e9z", by decide⟩
  obtain ⟨-, pieces, -, -, hdrains, -, -, hcontents⟩ := stack_drains_in_order hinside
  refine ⟨pieces, (hdrains pieces).mpr rfl, ?_⟩
  rw [hcontents]
  decide

end PatternAlgebra.Rope
