import PatternAlgebra.Proofs.Rope.Writing
/-!
# Ropes that are written alike

What is written of a rope depends on how it is put together only if stored lengths are wrong: two
ropes with the same characters and with right lengths are written alike.  Joining such ropes in the
same way gives ropes that are written alike again, and this is true of the stored length whatever it
is.  So a part of a text may be replaced by one with the same characters also where the text as a
whole has more characters than there are words, and what is written is cut off.

What a range asks for is no matter of characters then.  It is what the reader makes of the range,
and that is determined by what it makes of the ranges that the first turn leaves.
-/

namespace PatternAlgebra.Rope

/-! ## The pieces of a stack -/

/-- The pieces that a stack yields. -/
def stackPieces (stack : List Pending) : List String :=
  foldPieces (fun done piece => done ++ [piece]) [] stack

theorem foldl_append_singleton (pieces done : List String) :
    pieces.foldl (fun done piece => done ++ [piece]) done = done ++ pieces := by
  induction pieces generalizing done with
  | nil => exact (List.append_nil done).symm
  | cons piece pieces ih => rw [List.foldl_cons, ih, List.append_assoc, List.singleton_append]

theorem foldPieces_eq_foldl_stackPieces {α : Type} (f : α → String → α) (acc : α)
    (stack : List Pending) : foldPieces f acc stack = (stackPieces stack).foldl f acc := by
  suffices hafter : ∀ done : List String, foldPieces f (done.foldl f acc) stack
      = (foldPieces (fun done piece => done ++ [piece]) done stack).foldl f acc from hafter []
  -- on the weight of the stack, which falls with every piece
  induction hw : stackWeight stack using Nat.strong_induction_on generalizing stack with
  | _ weight ih =>
      intro done
      cases hnext : nextPiece stack with
      | none => rw [foldPieces_of_none _ _ hnext, foldPieces_of_none _ _ hnext]
      | some next =>
          obtain ⟨piece, rest⟩ := next
          have hrest := ih _ (hw ▸ stackWeight_lt_of_nextPiece hnext) rest rfl (done ++ [piece])
          rw [List.foldl_append] at hrest
          rw [foldPieces_of_some _ _ hnext, foldPieces_of_some _ _ hnext]
          exact hrest

theorem stackPieces_nil : stackPieces [] = [] := foldPieces_of_none _ _ (by rw [nextPiece])

theorem stackPieces_of_none {stack : List Pending} (h : nextPiece stack = none) :
    stackPieces stack = [] := foldPieces_of_none _ _ h

theorem stackPieces_of_some {stack rest : List Pending} {piece : String}
    (h : nextPiece stack = some (piece, rest)) : stackPieces stack = piece :: stackPieces rest := by
  rw [stackPieces, foldPieces_of_some _ _ h, foldPieces_eq_foldl_stackPieces]
  exact foldl_append_singleton (stackPieces rest) [piece]

/-- The first turn of the range on top, and then what it leaves. -/
theorem stackPieces_cons (top : Pending) (rest : List Pending) :
    stackPieces (top :: rest) = top.turn.1.toList ++ stackPieces (top.turn.2 ++ rest) := by
  cases hturn : top.turn.1 with
  | none =>
      have hnext : nextPiece (top :: rest) = nextPiece (top.turn.2 ++ rest) := by
        rw [nextPiece_cons, hturn]
      cases hpiece : nextPiece (top.turn.2 ++ rest) with
      | none => rw [stackPieces_of_none hpiece, stackPieces_of_none (hnext.trans hpiece)]; rfl
      | some next => rw [stackPieces_of_some hpiece, stackPieces_of_some (hnext.trans hpiece)]; rfl
  | some piece =>
      refine stackPieces_of_some ?_
      rw [nextPiece_cons, hturn]

theorem stackPieces_append (upper lower : List Pending) :
    stackPieces (upper ++ lower) = stackPieces upper ++ stackPieces lower := by
  -- on the weight of the upper part, which falls with every turn
  induction hw : stackWeight upper using Nat.strong_induction_on generalizing upper with
  | _ weight ih =>
      cases upper with
      | nil => rw [stackPieces_nil, List.nil_append, List.nil_append]
      | cons top upper =>
          have hturn := ih _ (hw ▸ stackWeight_turn_lt top upper) (top.turn.2 ++ upper) rfl
          rw [List.cons_append, stackPieces_cons, stackPieces_cons, ← List.append_assoc, hturn,
            List.append_assoc]

/-! ## What is read of a range -/

/-- The characters that come out for a range. -/
def Pending.read (range : Pending) : List Char := (stackPieces [range]).flatMap String.toList

theorem flatMap_stackPieces (stack : List Pending) :
    (stackPieces stack).flatMap String.toList = stack.flatMap Pending.read := by
  induction stack with
  | nil => rw [stackPieces_nil]; rfl
  | cons top rest ih =>
      rw [← List.singleton_append, stackPieces_append, List.flatMap_append, ih]
      rfl

/-- Where lengths are right, what comes out is what is asked for. -/
theorem Pending.Inside.read_eq {range : Pending} (h : range.Inside) :
    range.read = range.contents := by
  obtain ⟨pieces, hfold, -, hcontents⟩ :=
    foldPieces_eq_foldl [range] (List.forall_mem_singleton.mpr h)
  have hpieces : stackPieces [range] = pieces := by
    rw [stackPieces, hfold]
    exact foldl_append_singleton pieces []
  rw [Pending.read, hpieces, hcontents, stackContents, List.flatMap_singleton]

/-- What comes out for a range of a join comes out for its sides. -/
theorem read_concat {left right : Rope} {length start stop : Nat} (h : start < stop) :
    Pending.read ⟨concat left right length, start, stop⟩
      = (sides left right start stop).flatMap Pending.read := by
  have hturn : Pending.turn ⟨concat left right length, start, stop⟩
      = (none, sides left right start stop) := if_neg (Nat.not_le.mpr h)
  rw [Pending.read, stackPieces_cons, hturn, ← flatMap_stackPieces]
  simp

theorem read_of_le (rope : Rope) {start stop : Nat} (h : stop ≤ start) :
    Pending.read ⟨rope, start, stop⟩ = [] := by
  have hturn : Pending.turn ⟨rope, start, stop⟩ = (none, []) := if_pos h
  rw [Pending.read, stackPieces_cons, hturn]
  simp [stackPieces_nil]

/-! ## Interchangeable ropes -/

/-- Ropes with right lengths and the same characters, and joins of such ropes under the same stored
    length, which is at most what the sides have together. -/
inductive Interchangeable : Rope → Rope → Prop where
  | same {a b : Rope} (ha : a.WellFormed) (hb : b.WellFormed) (heq : a.contents = b.contents) :
      Interchangeable a b
  | concat {left right left' right' : Rope} {length : Nat} (hleft : Interchangeable left left')
      (hright : Interchangeable right right') (hle : length ≤ left.length + right.length) :
      Interchangeable (concat left right length) (concat left' right' length)

namespace Interchangeable

variable {a b left right left' right' : Rope}

theorem length_eq (h : Interchangeable a b) : a.length = b.length := by
  cases h with
  | same ha hb heq => rw [ha.length_eq, hb.length_eq, heq]
  | concat _ _ _ => rfl

theorem isEmpty_eq (h : Interchangeable a b) : a.isEmpty = b.isEmpty := by
  cases h with
  | same ha hb heq => rw [ha.isEmpty_eq, hb.isEmpty_eq, heq]
  | concat _ _ _ => rfl

theorem append (hleft : Interchangeable left left') (hright : Interchangeable right right') :
    Interchangeable (left ++ right) (left' ++ right') := by
  have hl := hleft.isEmpty_eq
  have hr := hright.isEmpty_eq
  cases hle : left.isEmpty with
  | true =>
      rw [append_of_isEmpty_left hle, append_of_isEmpty_left (hl ▸ hle)]
      exact hright
  | false =>
      cases hre : right.isEmpty with
      | true =>
          rw [append_of_isEmpty_right hle hre, append_of_isEmpty_right (hl ▸ hle) (hr ▸ hre)]
          exact hleft
      | false =>
          rw [append_of_not_isEmpty hle hre, append_of_not_isEmpty (hl ▸ hle) (hr ▸ hre),
            ← hleft.length_eq, ← hright.length_eq]
          exact .concat hleft hright (Nat.mod_le _ _)

/-- The same comes out for the same range. -/
theorem read_eq (h : Interchangeable a b) {start stop : Nat} (hstop : stop ≤ a.length) :
    Pending.read ⟨a, start, stop⟩ = Pending.read ⟨b, start, stop⟩ := by
  induction h generalizing start stop with
  | same ha hb heq =>
      have hlength : stop ≤ _ := hstop
      rw [ha.length_eq, heq, ← hb.length_eq] at hlength
      rw [Pending.Inside.read_eq ⟨ha, hstop⟩, Pending.Inside.read_eq ⟨hb, hlength⟩,
        Pending.contents, Pending.contents, heq]
  | @concat left right left' right' length hleft hright hle ihl ihr =>
      by_cases hlt : start < stop
      · have hlength : stop ≤ length := hstop
        have hright : stop - left.length ≤ right.length := by omega
        have hfirst : Pending.read ⟨left, start, min stop left.length⟩
            = Pending.read ⟨left', start, min stop left.length⟩ := ihl (Nat.min_le_right _ _)
        have hsecond : Pending.read ⟨right, start - left.length, stop - left.length⟩
            = Pending.read ⟨right', start - left.length, stop - left.length⟩ := ihr hright
        rw [read_concat hlt, read_concat hlt, sides, sides, List.flatMap_append,
          List.flatMap_append, ← hleft.length_eq]
        congr 1
        · split
          · rw [List.flatMap_singleton, List.flatMap_singleton, hfirst]
          · rfl
        · split
          · rw [List.flatMap_singleton, List.flatMap_singleton, hsecond]
          · rfl
      · rw [read_of_le _ (Nat.not_lt.mp hlt), read_of_le _ (Nat.not_lt.mp hlt)]

end Interchangeable

/-- What is written of a stack is a matter of the characters that come out. -/
theorem foldl_checkedExtend_congr {pieces pieces' : List String} {out : String}
    (hout : Text.Fits out) (h : pieces.flatMap String.toList = pieces'.flatMap String.toList) :
    pieces.foldl checkedExtend (.ok out) = pieces'.foldl checkedExtend (.ok out) := by
  by_cases hfits : Text.Fits (out ++ String.ofList (pieces.flatMap String.toList))
  · rw [foldl_checkedExtend_of_fits _ hfits, foldl_checkedExtend_of_fits _ (h ▸ hfits), h]
  · rw [foldl_checkedExtend_of_not_fits _ hout hfits,
      foldl_checkedExtend_of_not_fits _ hout (h ▸ hfits)]

/-- Interchangeable ropes are written alike. -/
theorem Interchangeable.checkedRender_eq {a b : Rope} (h : Interchangeable a b) :
    a.checkedRender = b.checkedRender := by
  have hread : a.unread.flatMap Pending.read = b.unread.flatMap Pending.read := by
    rw [unread, unread, List.flatMap_singleton, List.flatMap_singleton, ← h.length_eq]
    exact h.read_eq (Nat.le_refl _)
  rw [← flatMap_stackPieces, ← flatMap_stackPieces] at hread
  rw [checkedRender, checkedRender, ← h.length_eq, checkedWriteTo, checkedWriteTo,
    foldPieces_eq_foldl_stackPieces, foldPieces_eq_foldl_stackPieces,
    foldl_checkedExtend_congr (by decide) hread]

end PatternAlgebra.Rope
