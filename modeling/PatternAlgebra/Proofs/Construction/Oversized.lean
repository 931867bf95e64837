import PatternAlgebra.Proofs.Script.Constructible
import PatternAlgebra.Proofs.Syntax.Tree
/-!
# Expressions with more characters than there are words

An expression may occur in another one many times without being stored many times, so a text may
grow sixteenfold with every sixteen calls.  A few hundred calls are enough for a text of which a
word does not hold the length.

`crowd` is a family of such expressions.  Its members are groups in groups around no text at all, so
all of their characters are parentheses, the first ones are opening parentheses, and they are known
by their number: the length of the sixteenth is the last word but one.  One more character fits, and
with the next one the stored length starts over at zero.
-/

namespace PatternAlgebra

open Script Rope

/-! ## Rows without raw items -/

/-- Items of which none is raw or a sequence are settled one by one, and nothing is held back. -/
theorem Assembly.pushAll_of_notRaw {taken : List Expr}
    (h : ∀ e ∈ taken, e.isRawLike = false ∧ e.isSequence = false) {a : Assembly}
    (hrun : a.run = #[]) :
    (a.pushAll taken).run = #[] ∧
      (a.pushAll taken).components.toList = a.components.toList ++ taken := by
  induction taken generalizing a with
  | nil =>
      rw [pushAll]
      exact ⟨hrun, (List.append_nil _).symm⟩
  | cons item taken ih =>
      obtain ⟨hraw, hsequence⟩ := h item (by simp)
      have hrelease : a.release = a := by rw [release, hrun]
      have hpush : a.push item = { a with components := a.components.push item } := by
        rw [push_of_notSequence a hsequence, hraw, if_neg Bool.false_ne_true, settle, hrelease]
      have hempty : (a.push item).run = #[] := by rw [hpush, hrun]
      obtain ⟨hrun', hcomponents⟩ := ih (fun e he => h e (by simp [he])) hempty
      rw [pushAll]
      refine ⟨hrun', ?_⟩
      rw [hcomponents, hpush, Array.toList_push, List.append_assoc, List.singleton_append]

/-- A sequence of items of which none is raw or a sequence has them as they are. -/
theorem Sequence.ofItems_of_notRaw {items : List Sequenceable}
    (h : ∀ s ∈ items, s.expr.isRawLike = false ∧ s.expr.isSequence = false) :
    (ofItems items).value = .ofComponents (items.map Sequenceable.expr) := by
  have hitems : ∀ e ∈ items.map Sequenceable.expr, e.isRawLike = false ∧ e.isSequence = false := by
    simpa using h
  have hnothing : ({} : Assembly).run = #[] := rfl
  obtain ⟨hrun, hcomponents⟩ := Assembly.pushAll_of_notRaw hitems hnothing
  show Sequence.ofComponents (Assembly.pushAll {} _).release.components.toList = _
  rw [Assembly.release, hrun]
  exact congrArg _ hcomponents

/-! ## The family -/

namespace Group

/-- An expression in a pair of parentheses, and in so many more. -/
def captures (e : Expr) : Nat → Group
  | 0 => capture e
  | n + 1 => capture (captures e n).toExpr

/-- Seven pairs of parentheses around nothing, and then so many times sixteen copies of the last
    group side by side, in fifteen pairs of parentheses. -/
def crowd : Nat → Group
  | 0 => captures (.literal "") 6
  | n + 1 =>
    captures (Sequence.ofItems (List.replicate 16 (.ofGroup (crowd n)))).value.toExpr 14

/-! ## Parentheses around an expression -/

theorem constructible_captures {e : Expr} (h : Constructible (.group (capture e))) (n : Nat) :
    Constructible (.group (captures e n)) := by
  induction n with
  | zero => exact h
  | succ n ih => exact .unary (.wrap .capture) ih rfl

theorem contents_capture (e : Expr) :
    (capture e).toExpr.text.contents = '(' :: e.text.contents ++ [')'] := by
  show (Rope.ofString "(" ++ e.text ++ Rope.ofChar ')').contents = _
  rw [contents_append, contents_append, contents_ofString, contents_ofChar]
  rfl

theorem contents_captures (e : Expr) (n : Nat) :
    (captures e n).toExpr.text.contents
      = List.replicate (n + 1) '(' ++ e.text.contents ++ List.replicate (n + 1) ')' := by
  induction n with
  | zero => exact contents_capture e
  | succ n ih =>
      have hopening : List.replicate (n + 1 + 1) '(' = '(' :: List.replicate (n + 1) '(' := rfl
      have hclosing : List.replicate (n + 1 + 1) ')' = List.replicate (n + 1) ')' ++ [')'] :=
        List.replicate_succ'
      rw [captures, contents_capture, ih, hopening, hclosing]
      simp only [List.cons_append, List.append_assoc]

theorem isReadable_captures (e : Expr) (n : Nat) :
    (captures e n).toExpr.isReadable = e.isReadable := by
  induction n with
  | zero => rfl
  | succ n ih => exact ih

/-! ## Crowds -/

theorem constructible_crowd (n : Nat) : Constructible (.group (crowd n)) := by
  induction n with
  | zero => exact constructible_captures (.unary (.wrap .capture) (.leaf (.literal "") rfl) rfl) 6
  | succ n ih =>
      have hcopies : ∀ p ∈ List.replicate 16 (Node.group (crowd n)), Constructible p := by
        intro p hp
        obtain rfl := List.eq_of_mem_replicate hp
        exact ih
      exact constructible_captures
        (.unary (.wrap .capture) (.nary (.sequence .list) hcopies rfl) rfl) 14

/-- The copies side by side. -/
theorem ofItems_copies (n : Nat) :
    (Sequence.ofItems (List.replicate 16 (.ofGroup (crowd n)))).value
      = .ofComponents (List.replicate 16 (crowd n).toExpr) := by
  rw [Sequence.ofItems_of_notRaw]
  · rw [List.map_replicate]
    rfl
  · intro s hs
    obtain rfl := List.eq_of_mem_replicate hs
    exact ⟨rfl, rfl⟩

theorem contents_copies (n : Nat) :
    (Sequence.ofItems (List.replicate 16 (.ofGroup (crowd n)))).value.toExpr.text.contents
      = (List.replicate 16 (crowd n).toExpr.text.contents).flatten := by
  rw [ofItems_copies]
  show (Profile.concatenation ((List.replicate 16 (crowd n).toExpr).map _)).text.contents = _
  rw [Profile.contents_concatenation, List.flatMap_map, List.flatMap_replicate]
  rfl

theorem length_crowd (n : Nat) : (crowd n).toExpr.text.contents.length + 2 = 16 ^ (n + 1) := by
  induction n with
  | zero => rw [crowd, contents_captures]; rfl
  | succ n ih =>
      rw [crowd, contents_captures, contents_copies, List.length_append, List.length_append,
        List.length_replicate, List.length_replicate, List.length_flatten, List.map_replicate,
        List.sum_replicate_nat, Nat.pow_succ, ← ih]
      omega

/-- A crowd starts with more than four opening parentheses. -/
theorem take_contents_crowd (n : Nat) :
    (crowd n).toExpr.text.contents.take 4 = List.replicate 4 '(' := by
  have hstarts : ∃ rings rest, 7 ≤ rings ∧
      (crowd n).toExpr.text.contents = List.replicate rings '(' ++ rest := by
    cases n with
    | zero => exact ⟨7, _, Nat.le_refl 7, by rw [crowd, contents_captures, List.append_assoc]⟩
    | succ n => exact ⟨15, _, by decide, by rw [crowd, contents_captures, List.append_assoc]⟩
  obtain ⟨rings, rest, hrings, heq⟩ := hstarts
  rw [heq, List.take_append_of_le_length (by rw [List.length_replicate]; omega),
    List.take_replicate, Nat.min_eq_left (by omega)]

theorem isReadable_crowd (n : Nat) : (crowd n).toExpr.isReadable = true := by
  induction n with
  | zero => exact isReadable_captures _ 6
  | succ n ih =>
      rw [crowd, isReadable_captures, ofItems_copies]
      show Expr.areReadable (List.replicate 16 (crowd n).toExpr) = true
      simp [List.replicate, Expr.areReadable, ih]

/-! ## One character short of the last word -/

/-- A join with all the characters that a word can count. -/
theorem append_fills_word {left right : Rope} (hl : left.WellFormed) (hr : right.WellFormed)
    (h : left.length + right.length + 1 = wordLimit) :
    (left ++ right).WellFormed ∧ (left ++ right).length + 1 = wordLimit ∧
      (left ++ right).isEmpty = false := by
  have hlt : left.length + right.length < wordLimit := by omega
  have hwellFormed := wellFormed_append hl hr hlt
  have hlength := length_append_of_wellFormed hl hr hlt
  have hlimit : 1 < wordLimit := by decide
  exact ⟨hwellFormed, by omega, hwellFormed.isEmpty_eq_false (by omega)⟩

/-- A group of which a word still holds the length, and of one more character, but not of two. -/
structure Brimful (g : Group) : Prop where
  constructible : Constructible (.group g)
  readable : g.toExpr.isReadable = true
  length_add_two : g.toExpr.text.contents.length + 2 = wordLimit
  take_four : g.toExpr.text.contents.take 4 = List.replicate 4 '('

theorem brimful_crowd : Brimful (crowd 15) where
  constructible := constructible_crowd 15
  readable := isReadable_crowd 15
  length_add_two := length_crowd 15
  take_four := take_contents_crowd 15

/-- The group by a name under which nobody will try to compute it. -/
theorem exists_eq_crowd : ∃ g : Group, g.Brimful ∧ crowd 15 = g := ⟨_, brimful_crowd, rfl⟩

namespace Brimful

variable {g : Group} (h : g.Brimful)

include h

theorem wellFormed : g.toExpr.text.WellFormed := by
  have hwellBuilt : g.toExpr.WellBuilt := h.constructible.wellBuilt.of_content_eq rfl
  have hlength := h.length_add_two
  exact hwellBuilt.text_wellSized (by omega)

theorem length_render : g.toExpr.render.length + 2 = wordLimit := by
  rw [← String.length_toList, Expr.toList_render]
  exact h.length_add_two

theorem length_eq : g.toExpr.text.length + 2 = wordLimit := by
  rw [h.wellFormed.length_eq]
  exact h.length_add_two

theorem isEmpty_eq : g.toExpr.text.isEmpty = false := by
  have hlength := h.length_eq
  have hlimit : 2 < wordLimit := by decide
  exact h.wellFormed.isEmpty_eq_false (by omega)

/-! ## One pair of parentheses more -/

theorem constructible_capture : Constructible (.group (capture g.toExpr)) :=
  .unary (.wrap .capture) h.constructible rfl

theorem length_contents_capture : (capture g.toExpr).toExpr.text.contents.length = wordLimit := by
  rw [contents_capture, List.length_append, List.length_cons, List.length_singleton, Nat.add_assoc]
  exact h.length_add_two

/-- Nothing is stored of as many characters as there are words, and nothing is written. -/
theorem checkedRender_capture :
    (capture g.toExpr).toExpr.text.length = 0 ∧ (capture g.toExpr).toExpr.text.isEmpty = false ∧
      (capture g.toExpr).toExpr.checkedRender = .ok "" := by
  have hlength := h.length_eq
  obtain ⟨hopened, hsize, hne⟩ :
      (Rope.ofString "(" ++ g.toExpr.text).WellFormed ∧
        (Rope.ofString "(" ++ g.toExpr.text).length + 1 = wordLimit ∧
        (Rope.ofString "(" ++ g.toExpr.text).isEmpty = false := by
    refine append_fills_word (wellFormed_ofString _) h.wellFormed ?_
    show 1 + _ + 1 = _
    omega
  have hsum : (Rope.ofString "(" ++ g.toExpr.text).length + (Rope.ofChar ')').length
      = wordLimit + 0 := hsize
  obtain ⟨hzero, hrender⟩ := checkedRender_append_of_cut hopened hne rfl hsum (Nat.zero_le _)
    (by decide) (show Text.Fits "" by decide)
  have hwhole : (Rope.ofString "(" ++ g.toExpr.text ++ Rope.ofChar ')').isEmpty = false := by
    rw [append_of_not_isEmpty hne rfl]
    rfl
  exact ⟨hzero, hwhole, hrender⟩

/-! ## A literal beside it -/

theorem constructible_sequence (text : String) :
    Constructible (.sequence (Sequence.pair (.ofGroup g) (.ofLiteral text)).value) :=
  .binary .followedBy h.constructible (.leaf (.literal text) rfl) rfl

theorem readable_sequence (text : String) :
    (Sequence.pair (.ofGroup g) (.ofLiteral text)).value.toExpr.isReadable = true := by
  show (g.toExpr.isReadable && (true && true)) = true
  rw [h.readable]
  rfl

theorem length_contents_sequence :
    (Sequence.pair (.ofGroup g) (.ofLiteral "abcdef")).value.toExpr.text.contents.length
      = wordLimit + 4 := by
  show (g.toExpr.text ++ Rope.ofString "abcdef").contents.length = _
  rw [contents_append, contents_ofString, List.length_append, ← h.length_add_two]
  rfl

/-- With six more characters only the first four are written. -/
theorem checkedRender_sequence :
    let q := (Sequence.pair (.ofGroup g) (.ofLiteral "abcdef")).value
    q.toExpr.text.length = 4 ∧ q.toExpr.checkedRender = .ok "((((" := by
  have hlength := h.length_eq
  have hlimit : 6 < wordLimit := by decide
  have hsum : g.toExpr.text.length + (Rope.ofString "abcdef").length = wordLimit + 4 := by
    show _ + 6 = _
    omega
  have hcut := checkedRender_append_of_cut h.wellFormed h.isEmpty_eq rfl hsum (by omega) (by omega)
    (by rw [h.take_four]; decide)
  rw [h.take_four] at hcut
  exact hcut

/-- The bar between alternatives is one of six more characters. -/
theorem checkedRender_alternation :
    let a := Alternation.pair (Sequenceable.ofGroup g).toAlternative
      (Sequenceable.ofLiteral "abcde").toAlternative
    a.toExpr.text.length = 4 ∧ a.toExpr.checkedRender = .ok "((((" := by
  have hlength := h.length_eq
  have hlimit : 6 < wordLimit := by decide
  obtain ⟨hbarred, hsize, hne⟩ := append_fills_word h.wellFormed (wellFormed_ofChar '|') hlength
  have hsum : (g.toExpr.text ++ Rope.ofChar '|').length + (Rope.ofString "abcde").length
      = wordLimit + 4 := by
    show _ + 5 = _
    omega
  have htake : (g.toExpr.text ++ Rope.ofChar '|').contents.take 4 = List.replicate 4 '(' := by
    have hcount := h.wellFormed.length_eq
    rw [contents_append, List.take_append_of_le_length (by omega), h.take_four]
  have hcut := checkedRender_append_of_cut hbarred hne rfl hsum (by omega) (by omega)
    (by rw [htake]; decide)
  rw [htake] at hcut
  exact hcut

end Brimful

end Group

end PatternAlgebra
