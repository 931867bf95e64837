import PatternAlgebra.Rope.Traversal
import PatternAlgebra.Proofs.Rope.Contents
/-!
# Reading a rope yields its characters

The reader keeps a stack of ranges.  What carries its correctness is the list of characters that
the stack still asks for, from the top to the bottom: replacing a range by ranges of the ropes
below it leaves that list alone, and yielding a piece takes the piece off its front.
-/

namespace PatternAlgebra.Rope

/-- The characters that a range asks for. -/
def Pending.contents (range : Pending) : List Char :=
  (range.rope.contents.drop range.start).take (range.stop - range.start)

/-- The characters that a stack asks for, from the top to the bottom. -/
def stackContents (stack : List Pending) : List Char := stack.flatMap Pending.contents

/-- A range of a rope in order that ends inside the rope. -/
structure Pending.Inside (range : Pending) : Prop where
  wellFormed : range.rope.WellFormed
  stop_le : range.stop ≤ range.rope.length

theorem stackContents_cons (top : Pending) (rest : List Pending) :
    stackContents (top :: rest) = top.contents ++ stackContents rest := rfl

theorem stackContents_append (upper lower : List Pending) :
    stackContents (upper ++ lower) = stackContents upper ++ stackContents lower :=
  List.flatMap_append

/-- A range that ends before it starts asks for nothing. -/
theorem Pending.contents_of_le {range : Pending} (h : range.stop ≤ range.start) :
    range.contents = [] := by
  rw [Pending.contents, Nat.sub_eq_zero_of_le h, List.take_zero]

/-- A range inside a rope that starts before it ends asks for something. -/
theorem Pending.contents_ne_nil {range : Pending} (h : range.Inside)
    (hlt : range.start < range.stop) : range.contents ≠ [] := by
  obtain ⟨hwf, hstop⟩ := h
  rw [hwf.length_eq] at hstop
  apply List.ne_nil_of_length_pos
  rw [Pending.contents, List.length_take, List.length_drop]
  omega

/-! ## Replacing a range -/

/-- A range of a window is the shifted range of its parent. -/
theorem contents_of_window (parent : Rope) (offset length start stop : Nat)
    (h : stop ≤ length) :
    Pending.contents ⟨window parent offset length, start, stop⟩
      = Pending.contents ⟨parent, start + offset, stop + offset⟩ := by
  simp only [Pending.contents, contents]
  rw [List.drop_take, List.drop_drop, List.take_take, Nat.add_comm offset,
    Nat.min_eq_left (by omega), Nat.add_sub_add_right]

/-- A range of a join is a range of the left side and then one of the right side. -/
theorem stackContents_sides {left : Rope} (right : Rope) (hl : left.WellFormed)
    (start stop length : Nat) :
    stackContents (sides left right start stop)
      = Pending.contents ⟨concat left right length, start, stop⟩ := by
  have hlen := hl.length_eq
  have hwhole : Pending.contents ⟨concat left right length, start, stop⟩
      = (left.contents.drop start).take (stop - start)
        ++ (right.contents.drop (start - left.length)).take
          (stop - left.length - (start - left.length)) := by
    simp only [Pending.contents, contents]
    rw [List.drop_append, List.take_append, List.length_drop, ← hlen]
    congr 2
    omega
  have hleft : (if start < left.length
        then [(⟨left, start, min stop left.length⟩ : Pending)] else []).flatMap Pending.contents
      = (left.contents.drop start).take (stop - start) := by
    by_cases h : start < left.length
    · -- clipping at the end of the left side takes nothing away
      rw [if_pos h, List.flatMap_singleton]
      simp only [Pending.contents]
      by_cases hclip : stop ≤ left.length
      · rw [Nat.min_eq_left hclip]
      · rw [Nat.min_eq_right (by omega), List.take_of_length_le (by rw [List.length_drop]; omega),
          List.take_of_length_le (by rw [List.length_drop]; omega)]
    · rw [if_neg h, List.drop_eq_nil_of_le (by omega), List.take_nil, List.flatMap_nil]
  have hright : (if left.length < stop
        then [(⟨right, start - left.length, stop - left.length⟩ : Pending)]
        else []).flatMap Pending.contents
      = (right.contents.drop (start - left.length)).take
          (stop - left.length - (start - left.length)) := by
    by_cases h : left.length < stop
    · rw [if_pos h, List.flatMap_singleton, Pending.contents]
    · rw [if_neg h, List.flatMap_nil, Nat.sub_eq_zero_of_le (Nat.not_lt.mp h), Nat.zero_sub,
        List.take_zero]
  rw [sides, stackContents_append, stackContents, stackContents, hleft, hright, hwhole]

/-- The ranges of the sides end inside them. -/
theorem sides_inside {left right : Rope} (hl : left.WellFormed) (hr : right.WellFormed)
    {start stop : Nat} (hstop : stop ≤ left.length + right.length) :
    ∀ range ∈ sides left right start stop, range.Inside := by
  intro range hmem
  rcases List.mem_append.mp hmem with hleft | hright
  · by_cases h : start < left.length
    · rw [if_pos h, List.mem_singleton] at hleft
      subst hleft
      exact ⟨hl, Nat.min_le_right _ _⟩
    · rw [if_neg h] at hleft
      exact absurd hleft (by simp)
  · by_cases h : left.length < stop
    · rw [if_pos h, List.mem_singleton] at hright
      subst hright
      exact ⟨hr, by simp only; omega⟩
    · rw [if_neg h] at hright
      exact absurd hright (by simp)

/-! ## One turn -/

/-- One turn of the reader: the piece that the range on top yields, if it yields one, and the ranges
    that take its place on the stack. -/
def Pending.turn (top : Pending) : Option String × List Pending :=
  if top.stop ≤ top.start then (none, [])
  else match top.rope with
    | empty => (none, [])
    | leaf text length => (some (Text.charRange text length top.start top.stop), [])
    | window parent offset _ => (none, [⟨parent, top.start + offset, top.stop + offset⟩])
    | concat left right _ => (none, sides left right top.start top.stop)

/-- Turns are taken until one of them yields a piece. -/
theorem nextPiece_cons (top : Pending) (rest : List Pending) :
    nextPiece (top :: rest) = match top.turn.1 with
      | none => nextPiece (top.turn.2 ++ rest)
      | some piece => some (piece, top.turn.2 ++ rest) := by
  obtain ⟨rope, start, stop⟩ := top
  rw [nextPiece.eq_def]
  unfold Pending.turn
  by_cases hle : stop ≤ start
  · simp only [if_pos hle, List.nil_append]
  · simp only [if_neg hle]
    cases rope with
    | empty => rfl
    | leaf text length => rfl
    | window parent offset length => rfl
    | concat left right length => rfl

/-- A turn takes at least one node off the stack. -/
theorem stackWeight_turn_lt (top : Pending) (rest : List Pending) :
    stackWeight (top.turn.2 ++ rest) < stackWeight (top :: rest) := by
  suffices hturn : stackWeight top.turn.2 < top.rope.nodeCount by
    rw [stackWeight_append, stackWeight]
    omega
  obtain ⟨rope, start, stop⟩ := top
  unfold Pending.turn
  by_cases hle : stop ≤ start
  · simp only [if_pos hle, stackWeight]
    exact nodeCount_pos rope
  · simp only [if_neg hle]
    cases rope with
    | empty => exact nodeCount_pos empty
    | leaf text length => exact nodeCount_pos (leaf text length)
    | window parent offset length => exact Nat.lt_succ_self parent.nodeCount
    | concat left right length =>
        exact Nat.lt_succ_of_le (stackWeight_sides_le left right start stop)

/-- A range gives way to a piece, if there is one, and to ranges that end inside their ropes: the
    piece has characters, and piece and ranges ask for what the range asked for. -/
structure Pending.GivesWay (top : Pending) (piece : Option String) (ranges : List Pending) :
    Prop where
  inside : ∀ range ∈ ranges, range.Inside
  nonempty : ∀ text ∈ piece, text.toList ≠ []
  contents_eq : top.contents = piece.toList.flatMap String.toList ++ stackContents ranges

/-- What one turn keeps. -/
theorem Pending.Inside.givesWay {top : Pending} (h : top.Inside) :
    top.GivesWay top.turn.1 top.turn.2 := by
  obtain ⟨rope, start, stop⟩ := top
  unfold Pending.turn
  by_cases hle : stop ≤ start
  · simp only [if_pos hle]
    exact ⟨by simp, by simp, Pending.contents_of_le hle⟩
  · simp only [if_neg hle]
    have hne : Pending.contents ⟨rope, start, stop⟩ ≠ [] :=
      Pending.contents_ne_nil h (Nat.not_le.mp hle)
    obtain ⟨hwf, hstop⟩ := h
    cases hwf with
    | empty =>
        refine ⟨by simp, by simp, ?_⟩
        rw [Pending.contents, Rope.contents, List.drop_nil, List.take_nil]
        rfl
    | @leaf text nonempty =>
        have hpiece : (Text.charRange text text.length start stop).toList
            = Pending.contents ⟨leaf text text.length, start, stop⟩ := by
          rw [Text.charRange_eq (Nat.not_le.mp hle) hstop, String.toList_ofList]
          rfl
        refine ⟨by simp, ?_, ?_⟩
        · intro piece hsome
          rwa [← Option.some.inj hsome, hpiece]
        · simp [stackContents, hpiece]
    | @window parent offset length hparent _ _ hinside _ =>
        have hlast : stop ≤ length := hstop
        refine ⟨?_, by simp, ?_⟩
        · intro range hmem
          obtain rfl := List.mem_singleton.mp hmem
          exact ⟨hparent, by simp only; omega⟩
        · rw [contents_of_window _ _ _ _ _ hlast]
          simp [stackContents]
    | @concat left right hl hr _ _ =>
        refine ⟨sides_inside hl hr hstop, by simp, ?_⟩
        rw [stackContents_sides right hl]
        rfl

/-! ## One piece -/

/-- What taking the next piece off a stack means: either the stack asks for nothing, or a piece
    with characters comes first and the rest of the stack asks for what follows. -/
def Emits (stack : List Pending) : Option (String × List Pending) → Prop
  | none => stackContents stack = []
  | some (piece, rest) =>
    piece.toList ≠ [] ∧ (∀ range ∈ rest, range.Inside) ∧
      stackContents stack = piece.toList ++ stackContents rest

theorem Emits.congr {stack stack' : List Pending} {next : Option (String × List Pending)}
    (hsame : stackContents stack = stackContents stack') (h : Emits stack' next) :
    Emits stack next := by
  cases next with
  | none => exact hsame.trans h
  | some next => exact ⟨h.1, h.2.1, hsame.trans h.2.2⟩

/-- The next piece is the first of what the stack asks for. -/
theorem emits_nextPiece {stack : List Pending} (h : ∀ range ∈ stack, range.Inside) :
    Emits stack (nextPiece stack) := by
  -- on the weight of the stack, which falls with every turn
  induction hw : stackWeight stack using Nat.strong_induction_on generalizing stack with
  | _ weight ih =>
      cases stack with
      | nil =>
          rw [nextPiece]
          rfl
      | cons top rest =>
          obtain ⟨htop, hrest⟩ := List.forall_mem_cons.mp h
          obtain ⟨hinside, hpiece, hcontents⟩ := htop.givesWay
          have hbelow : ∀ range ∈ top.turn.2 ++ rest, range.Inside :=
            List.forall_mem_append.mpr ⟨hinside, hrest⟩
          have hstack : stackContents (top :: rest)
              = top.turn.1.toList.flatMap String.toList ++ stackContents (top.turn.2 ++ rest) := by
            rw [stackContents_cons, hcontents, stackContents_append, List.append_assoc]
          rw [nextPiece_cons]
          cases hturn : top.turn.1 with
          | none =>
              rw [hturn] at hstack
              exact Emits.congr hstack (ih _ (hw ▸ stackWeight_turn_lt top rest) hbelow rfl)
          | some piece =>
              rw [hturn, Option.toList_some, List.flatMap_singleton] at hstack
              exact ⟨hpiece piece hturn, hbelow, hstack⟩

/-! ## All pieces -/

theorem foldPieces_of_none {α : Type} (f : α → String → α) (acc : α) {stack : List Pending}
    (h : nextPiece stack = none) : foldPieces f acc stack = acc := by
  rw [foldPieces]
  split
  · rfl
  · rename_i heq
    rw [h] at heq
    exact absurd heq (by simp)

theorem foldPieces_of_some {α : Type} (f : α → String → α) (acc : α) {stack rest : List Pending}
    {piece : String} (h : nextPiece stack = some (piece, rest)) :
    foldPieces f acc stack = foldPieces f (f acc piece) rest := by
  rw [foldPieces]
  split
  · rename_i heq
    rw [h] at heq
    exact absurd heq (by simp)
  · rename_i piece' rest' heq
    rw [h] at heq
    obtain ⟨rfl, rfl⟩ := Prod.mk.inj (Option.some.inj heq)
    rfl

/-- Taking in the pieces of a stack is a fold over a list of texts, each of them with characters,
    that together are what the stack asks for. -/
theorem foldPieces_eq_foldl (stack : List Pending) (h : ∀ range ∈ stack, range.Inside) :
    ∃ pieces : List String,
      (∀ {α : Type} (f : α → String → α) (acc : α),
        foldPieces f acc stack = pieces.foldl f acc) ∧
      (∀ piece ∈ pieces, piece.toList ≠ []) ∧
      pieces.flatMap String.toList = stackContents stack := by
  -- on the weight of the stack, which falls with every piece
  induction hw : stackWeight stack using Nat.strong_induction_on generalizing stack with
  | _ weight ih =>
      have hemits := emits_nextPiece h
      cases hnext : nextPiece stack with
      | none =>
          rw [hnext] at hemits
          refine ⟨[], fun f acc => foldPieces_of_none f acc hnext, by simp, ?_⟩
          exact hemits.symm
      | some next =>
          obtain ⟨piece, rest⟩ := next
          rw [hnext] at hemits
          obtain ⟨hpiece, hrest, hstack⟩ := hemits
          obtain ⟨pieces, hfold, hne, hcat⟩ :=
            ih _ (hw ▸ stackWeight_lt_of_nextPiece hnext) rest hrest rfl
          refine ⟨piece :: pieces, ?_, ?_, ?_⟩
          · intro α f acc
            rw [foldPieces_of_some f acc hnext]
            exact hfold f (f acc piece)
          · intro q hq
            rcases List.mem_cons.mp hq with rfl | hmem
            · exact hpiece
            · exact hne q hmem
          · rw [List.flatMap_cons, hcat, hstack]

theorem unread_inside {rope : Rope} (h : rope.WellFormed) :
    ∀ range ∈ rope.unread, range.Inside := by
  intro range hmem
  obtain rfl := List.mem_singleton.mp hmem
  exact ⟨h, Nat.le_refl _⟩

theorem stackContents_unread {rope : Rope} (h : rope.WellFormed) :
    stackContents rope.unread = rope.contents := by
  rw [unread, stackContents, List.flatMap_singleton, Pending.contents, List.drop_zero,
    Nat.sub_zero, h.length_eq, List.take_length]

/-- What every piece keeps, a loop over the pieces keeps. -/
theorem foldPieces_preserves {α : Type} {P : α → Prop} {f : α → String → α}
    (hf : ∀ (acc : α) (piece : String), P acc → P (f acc piece)) {acc : α} (h : P acc)
    (stack : List Pending) : P (foldPieces f acc stack) := by
  induction hw : stackWeight stack using Nat.strong_induction_on generalizing stack acc with
  | _ weight ih =>
      cases hnext : nextPiece stack with
      | none => rwa [foldPieces_of_none f acc hnext]
      | some next =>
          obtain ⟨piece, rest⟩ := next
          rw [foldPieces_of_some f acc hnext]
          exact ih _ (hw ▸ stackWeight_lt_of_nextPiece hnext) (hf acc piece h) rest rfl

/-- The characters of a rope come out in order. -/
theorem chars_eq {rope : Rope} (h : rope.WellFormed) : rope.chars = rope.contents := by
  obtain ⟨pieces, hfold, -, hcat⟩ := foldPieces_eq_foldl rope.unread (unread_inside h)
  have hlist : rope.pieces.toList = pieces := by
    rw [Rope.pieces, hfold]
    have hpush : ∀ (rest : List String) (done : Array String),
        (rest.foldl Array.push done).toList = done.toList ++ rest := by
      intro rest
      induction rest with
      | nil => intro done; simp
      | cons piece rest ih => intro done; rw [List.foldl_cons, ih]; simp
    rw [hpush, List.nil_append]
  rw [chars, hlist, hcat, stackContents_unread h]

theorem writeTo_eq {rope : Rope} (h : rope.WellFormed) (out : String) :
    rope.writeTo out = out ++ String.ofList rope.contents := by
  obtain ⟨pieces, hfold, -, hcat⟩ := foldPieces_eq_foldl rope.unread (unread_inside h)
  rw [writeTo, hfold, ← stackContents_unread h, ← hcat]
  have hwrite : ∀ (rest : List String) (done : String),
      rest.foldl (· ++ ·) done = done ++ String.ofList (rest.flatMap String.toList) := by
    intro rest
    induction rest with
    | nil => intro done; simp
    | cons piece rest ih =>
        intro done
        rw [List.foldl_cons, ih, List.flatMap_cons, String.ofList_append, String.ofList_toList,
          String.append_assoc]
  exact hwrite pieces out

/-- Ropes are equal when they have the same characters. -/
theorem beq_iff {a b : Rope} (ha : a.WellFormed) (hb : b.WellFormed) :
    (a == b) = true ↔ a.contents = b.contents := by
  have hdef : (a == b) = (a.length == b.length && a.chars == b.chars) := rfl
  rw [hdef, Bool.and_eq_true, beq_iff_eq, beq_iff_eq, chars_eq ha, chars_eq hb, ha.length_eq,
    hb.length_eq]
  constructor
  · intro h
    exact h.2
  · intro h
    exact ⟨by rw [h], h⟩

end PatternAlgebra.Rope
