import PatternAlgebra.Proofs.Construction.Oversized
import PatternAlgebra.Proofs.Syntax.ReadToken
/-!
# Reading back patterns

Reading what an expression renders to gives the normal form of the expression.  Nodes are put
together by putting their texts together, so this rests on no text being able to go on into its
neighbour.

As for classes, each node is read from any state and in front of any text that starts like a node
or like what comes between nodes, which is never a quantifier.  A node that takes a quantifier is
read in front of any text at all.
-/

namespace PatternAlgebra.Syntax

/-! ## Branches after branches -/

theorem Level.addBranches_append {α : Type} : ∀ (rows rows' : List (List α)) (level : Level α),
    rows ≠ [] → rows' ≠ [] →
    level.addBranches (rows ++ rows') = (level.addBranches rows).split.addBranches rows' := by
  intro rows
  induction rows with
  | nil =>
      intro _ _ hne _
      exact absurd rfl hne
  | cons row rows ih =>
      intro rows' level _ hne'
      cases rows with
      | nil =>
          obtain ⟨next, rows', rfl⟩ := List.exists_cons_of_ne_nil hne'
          rfl
      | cons next rows => exact ih rows' _ (List.cons_ne_nil _ _) hne'

/-! ## Reading on -/

section Steps

variable {state next : State GroupKind Piece} {text rest : List Char}

theorem readFrom_token {token : Token} (h : nextToken text = some (token, rest))
    (hlt : rest.length < text.length) (hstep : step state token = some next) :
    readFrom state text = readFrom next rest := by
  have hne : ¬ text.isEmpty = true := by
    rintro hempty
    obtain rfl := List.isEmpty_iff.mp hempty
    exact absurd hlt (Nat.not_lt_zero _)
  rw [readFrom, if_neg hne, h]
  show (if rest.length < text.length then _ else none) = _
  rw [if_pos hlt, hstep]

/-- There is no token in an empty text. -/
theorem ne_nil_of_nextToken {token : Token} (h : nextToken text = some (token, rest)) :
    text ≠ [] := by
  rintro rfl
  exact nomatch (show (none : Option (Token × List Char)) = some (token, rest) from h)

theorem readFrom_bar (rest : List Char) :
    readFrom state ('|' :: rest) = readFrom state.split rest :=
  readFrom_token rfl (by simp) rfl

theorem readFrom_leave {kind : GroupKind} {outer : Level Piece}
    {around : List (GroupKind × Level Piece)} (level : Level Piece) (rest : List Char) :
    readFrom ⟨level, (kind, outer) :: around⟩ (')' :: rest)
      = readFrom ⟨outer.add (.group kind level.branches), around⟩ rest :=
  readFrom_token rfl (by simp) rfl

/-- Opening parentheses are not read unless they are closed again. -/
theorem readFrom_openings {n : Nat} (h : n ≠ 0 ∨ state.around ≠ []) :
    readFrom state (List.replicate n '(') = none := by
  induction n generalizing state with
  | zero =>
      have hopen : ¬ state.around.isEmpty = true := by simpa using h
      rw [readFrom]
      exact if_neg hopen
  | succ n ih =>
      have htoken : nextToken (List.replicate (n + 1) '(')
          = some (.enter .capture, List.replicate n '(') := by
        cases n <;> rfl
      rw [readFrom_token htoken (by simp) rfl]
      exact ih (Or.inr (List.cons_ne_nil _ _))

/-- A quantifier changes the last piece. -/
theorem step_quantifier {p : Piece} (hp : p.isRepeated = false) (q : Quantifier) (mode : Mode) :
    step (state.add p) (.quantifier q mode) = some (state.add (.repeated p q mode)) := by
  have hlast : (state.add p).level.current.getLast? = some p := List.getLast?_concat
  have hinit : (state.add p).level.current.dropLast = state.level.current :=
    List.dropLast_concat
  rw [step, hlast]
  show (if p.isRepeated then none else _) = _
  rw [hp, if_neg Bool.false_ne_true, hinit]
  rfl

end Steps

/-! ## Texts that read as branches -/

/-- A text reads as some branches, in front of any text that does not start like a quantifier. -/
structure ReadsAs (text : List Char) (branches : List (List Piece)) : Prop where
  starts : StartsOutside quantifierStarts text
  nonempty : branches ≠ []
  reads : ∀ (state : State GroupKind Piece) (rest : List Char),
    StartsOutside quantifierStarts rest →
    readFrom state (text ++ rest) = readFrom (state.addBranches branches) rest

/-- A text reads as one piece without a quantifier, in front of any text. -/
structure ReadsAsPiece (text : List Char) (p : Piece) : Prop where
  starts : StartsOutside quantifierStarts text
  unrepeated : p.isRepeated = false
  reads : ∀ (state : State GroupKind Piece) (rest : List Char),
    readFrom state (text ++ rest) = readFrom (state.add p) rest

theorem ReadsAsPiece.of_token {text : List Char} {p : Piece} (hne : text ≠ [])
    (hstarts : StartsOutside quantifierStarts text) (hp : p.isRepeated = false)
    (h : ∀ rest, nextToken (text ++ rest) = some (.piece p, rest)) : ReadsAsPiece text p where
  starts := hstarts
  unrepeated := hp
  reads := by
    intro state rest
    exact readFrom_token (h rest) (length_lt_append hne rest) rfl

theorem ReadsAsPiece.readsAs {text : List Char} {p : Piece} (h : ReadsAsPiece text p) :
    ReadsAs text [[p]] :=
  ⟨h.starts, List.cons_ne_nil _ _, fun state rest _ => h.reads state rest⟩

theorem ReadsAsPiece.repeated {text : List Char} {p : Piece} (h : ReadsAsPiece text p)
    (hne : text ≠ []) (q : Quantifier) (mode : Mode) :
    ReadsAs (text ++ (q.text ++ mode.suffix).toList) [[.repeated p q mode]] where
  starts := h.starts.append_of_ne_nil hne _
  nonempty := List.cons_ne_nil _ _
  reads := by
    intro state rest hrest
    have hsuffix := ne_nil_of_nextToken (nextToken_quantifier q mode .nil)
    rw [List.append_nil] at hsuffix
    rw [List.append_assoc, h.reads]
    exact readFrom_token (nextToken_quantifier q mode hrest) (length_lt_append hsuffix rest)
      (step_quantifier h.unrepeated q mode)

/-- Every opening of a group is a parenthesis and what tells the kind. -/
theorem opening_eq_cons (kind : GroupKind) : ∃ tail, kind.opening.toList = '(' :: tail := by
  cases kind with
  | enableFlags flags =>
      refine ⟨'?' :: ((flagLetters flags).toList ++ [':']), ?_⟩
      simp [GroupKind.opening]
  | disableFlags flags =>
      refine ⟨'?' :: '-' :: ((flagLetters flags).toList ++ [':']), ?_⟩
      simp [GroupKind.opening]
  | _ => exact ⟨_, rfl⟩

namespace ReadsAs

variable {text text' : List Char} {row row' : List Piece} {branches branches' : List (List Piece)}

theorem nil : ReadsAs [] [[]] where
  starts := .nil
  nonempty := List.cons_ne_nil _ _
  reads := by
    intro state rest _
    exact congrArg (readFrom · rest) state.addAll_nil.symm

theorem append (h : ReadsAs text [row]) (h' : ReadsAs text' [row']) :
    ReadsAs (text ++ text') [row ++ row'] where
  starts := h.starts.append h'.starts
  nonempty := List.cons_ne_nil _ _
  reads := by
    intro state rest hrest
    rw [List.append_assoc, h.reads state _ (h'.starts.append hrest), h'.reads _ rest hrest]
    exact congrArg (readFrom · rest) (state.addAll_append row row').symm

theorem bar (h : ReadsAs text branches) (h' : ReadsAs text' branches') :
    ReadsAs (text ++ '|' :: text') (branches ++ branches') where
  starts := h.starts.append (.cons (by decide) _)
  nonempty := List.append_ne_nil_of_left_ne_nil h.nonempty _
  reads := by
    intro state rest hrest
    rw [List.append_assoc]
    show readFrom state (text ++ '|' :: (text' ++ rest)) = _
    rw [h.reads state _ (.cons (by decide) _), readFrom_bar, h'.reads _ rest hrest]
    have hstate : state.addBranches (branches ++ branches')
        = (state.addBranches branches).split.addBranches branches' := by
      rw [State.addBranches, Level.addBranches_append _ _ _ h.nonempty h'.nonempty]
      rfl
    rw [hstate]

theorem group (h : ReadsAs text branches) (kind : GroupKind) :
    ReadsAsPiece (kind.opening.toList ++ text ++ [')']) (.group kind.asWritten branches) where
  starts := by
    obtain ⟨tail, htail⟩ := opening_eq_cons kind
    rw [htail]
    exact .cons (by decide) _
  unrepeated := rfl
  reads := by
    intro state rest
    have hclose : StartsOutside quantifierStarts (')' :: rest) := .cons (by decide) _
    have hopening := nextToken_opening kind (h.starts.append hclose)
    have hlt : (text ++ ')' :: rest).length
        < (kind.opening.toList ++ (text ++ ')' :: rest)).length := by
      obtain ⟨tail, htail⟩ := opening_eq_cons kind
      rw [htail]
      exact length_lt_append (List.cons_ne_nil _ _) _
    rw [List.append_assoc, List.append_assoc, List.singleton_append,
      readFrom_token hopening hlt rfl, h.reads _ _ hclose, State.addBranches, State.enter,
      readFrom_leave, Level.branches_addBranches h.nonempty]
    rfl

theorem readFrom_eq (h : ReadsAs text branches) : readFrom {} text = some branches := by
  have hend := h.reads {} [] .nil
  rw [List.append_nil] at hend
  rw [hend, readFrom]
  show some (({} : Level Piece).addBranches branches).branches = _
  rw [Level.branches_addBranches h.nonempty]

end ReadsAs

/-! ## Literals and entities -/

/-- A run of characters is read back one by one, each with the next one in view. -/
theorem readsAs_escapeChars (chars : List Char) :
    ReadsAs (escapeChars chars) [chars.map .char] := by
  have hstarts := startsOutside_escapeChars not_mem_backslash_quantifierStarts
    mem_needsEscape_of_quantifierStarts
  induction chars with
  | nil => exact .nil
  | cons c chars ih =>
      refine ⟨hstarts (c :: chars), List.cons_ne_nil _ _, ?_⟩
      intro state rest hrest
      have htoken := nextToken_char c (follows_escapeChars chars rest)
      have hlt := length_lt_append (escapedBefore_ne_nil c chars.head?) (escapeChars chars ++ rest)
      rw [escapeChars, List.append_assoc, readFrom_token htoken hlt rfl, ih.reads _ rest hrest,
        List.map_cons]
      exact congrArg (readFrom · rest) (state.addAll_append [_] _).symm

/-- A character alone is read back in front of any text. -/
theorem readsAsPiece_escapedAlone (c : Char) : ReadsAsPiece (escapedAlone c) (.char c) := by
  refine .of_token (escapedBefore_ne_nil c none) ?_ rfl
    fun rest => nextToken_char c (follows_none rest)
  exact startsOutside_escapedBefore not_mem_backslash_quantifierStarts
    mem_needsEscape_of_quantifierStarts c none

theorem readsAsPiece_entity (e : Entity) : ReadsAsPiece e.text.toList (.entity e) := by
  refine .of_token ?_ ?_ rfl (nextToken_entity e)
  · cases e <;> exact List.cons_ne_nil _ _
  · cases e <;> exact .cons (by decide) _

theorem RawAtom.readsAs (a : RawAtom) : ReadsAs a.profile.text.contents [a.pieces] := by
  cases a with
  | entity e =>
      show ReadsAs (Rope.ofString e.text).contents [[.entity e]]
      rw [Rope.contents_ofString]
      exact (readsAsPiece_entity e).readsAs
  | literal text =>
      show ReadsAs (Rope.ofString (escape text)).contents [text.toList.map .char]
      rw [Rope.contents_ofString, escape, String.toList_ofList]
      exact readsAs_escapeChars text.toList

theorem readsAs_flatMap {α : Type} {parts : List α} {text : α → List Char} {row : α → List Piece}
    (h : ∀ a ∈ parts, ReadsAs (text a) [row a]) :
    ReadsAs (parts.flatMap text) [parts.flatMap row] := by
  induction parts with
  | nil => exact .nil
  | cons a parts ih =>
      rw [List.flatMap_cons, List.flatMap_cons]
      exact (h a (by simp)).append (ih fun b hb => h b (by simp [hb]))

/-! ## Expressions -/

/-- Alternatives with bars between them. -/
theorem readsAs_alternatives : ∀ (rest : List Expr) (first : Expr),
    (∀ e ∈ first :: rest, ReadsAs e.text.contents e.branches) →
    ReadsAs (first.text.contents ++ rest.flatMap fun e => '|' :: e.text.contents)
      (Expr.branchesOfAny (first :: rest)) := by
  intro rest
  induction rest with
  | nil =>
      intro first h
      rw [List.flatMap_nil, List.append_nil, Expr.branchesOfAny, Expr.branchesOfAny,
        List.append_nil]
      exact h first (by simp)
  | cons next rest ih =>
      intro first h
      have hrest := ih next fun e he => h e (by simp [he])
      exact (h first (by simp)).bar hrest

/-- Components in a row, none of which is an alternation. -/
theorem readsAs_components {components : List Expr}
    (h : ∀ e ∈ components, ∃ row, e.branches = [row] ∧ ReadsAs e.text.contents [row]) :
    ReadsAs (components.flatMap (·.text.contents)) [Expr.piecesInRow components] := by
  induction components with
  | nil => exact .nil
  | cons e components ih =>
      obtain ⟨row, hrow, hreads⟩ := h e (by simp)
      have hpieces : Expr.piecesInRow (e :: components) = row ++ Expr.piecesInRow components := by
        rw [Expr.piecesInRow, hrow, List.flatten_singleton]
      rw [List.flatMap_cons, hpieces]
      exact hreads.append (ih fun d hd => h d (by simp [hd]))

/-- What may stand in a row is one row itself. -/
theorem exists_branches_eq_singleton {e : Expr} (h : e.isSequenceable = true) :
    ∃ row, e.branches = [row] := by
  cases e with
  | adopted pattern => exact nomatch h
  | alternation alternatives profile => exact nomatch h
  | _ => exact ⟨_, by rw [Expr.branches]⟩

/-- Among raw nodes, only entities take a quantifier. -/
theorem exists_entity_of_isQuantifiable {r : Raw} (h : (Expr.raw r).isQuantifiable = true) :
    ∃ e, r = .entity e := by
  cases r with
  | compound c => exact nomatch h
  | atom a =>
      cases a with
      | entity e => exact ⟨e, rfl⟩
      | literal text => exact nomatch h

/-- How the text of an expression reads. -/
structure ReadsBack (e : Expr) : Prop where
  reads : ReadsAs e.text.contents e.branches
  readsPiece : e.isQuantifiable = true →
    ∃ p, e.branches = [[p]] ∧ e.text.contents ≠ [] ∧ ReadsAsPiece e.text.contents p

/-- A node that takes a quantifier is a piece, and so it reads as a row of one. -/
theorem ReadsBack.of_piece {e : Expr} {p : Piece} (hbranches : e.branches = [[p]])
    (hne : e.text.contents ≠ []) (h : ReadsAsPiece e.text.contents p) : ReadsBack e := by
  refine ⟨?_, fun _ => ⟨p, hbranches, hne, h⟩⟩
  rw [hbranches]
  exact h.readsAs

theorem ReadsBack.of_reads {e : Expr} (hq : e.isQuantifiable = false)
    (h : ReadsAs e.text.contents e.branches) : ReadsBack e :=
  ⟨h, fun hq' => nomatch hq.symm.trans hq'⟩

/-- Every well-built expression without adopted text reads as its normal form. -/
theorem readsBack {e : Expr} (h : e.WellBuilt) (hr : e.isReadable = true) : ReadsBack e := by
  induction h with
  | literal text =>
      refine .of_reads rfl ?_
      show ReadsAs (Rope.ofString (escape text)).contents [text.toList.map .char]
      rw [Rope.contents_ofString, escape, String.toList_ofList]
      exact readsAs_escapeChars text.toList
  | charLiteral c =>
      have htext : (Expr.charLiteral c).text.contents = escapedAlone c := by
        show (Rope.ofString (escapeChar c)).contents = _
        rw [Rope.contents_ofString, escapeChar, String.toList_ofList]
      refine .of_piece rfl ?_ ?_
      · rw [htext]
        exact escapedBefore_ne_nil c none
      · rw [htext]
        exact readsAsPiece_escapedAlone c
  | @raw r coherent =>
      have hreads : ReadsAs r.profile.text.contents [r.atoms.flatMap RawAtom.pieces] := by
        rw [coherent.contents_eq]
        exact readsAs_flatMap fun a _ => RawAtom.readsAs a
      refine ⟨hreads, ?_⟩
      intro hq
      -- a literal and a compound are rows, of which a quantifier would take only the last piece
      obtain ⟨e, rfl⟩ := exists_entity_of_isQuantifiable hq
      have htext : (Expr.raw (.entity e)).text.contents = e.text.toList :=
        Rope.contents_ofString e.text
      rw [htext]
      refine ⟨.entity e, rfl, ?_, readsAsPiece_entity e⟩
      cases e <;> exact List.cons_ne_nil _ _
  | adopted pattern => cases hr
  | @charClass k hk =>
      obtain ⟨p, hp, hpieces, htoken⟩ := nextToken_class hk hr
      have htext : (Expr.charClass k).text.contents = k.independentChars := by
        show (Rope.ofString k.independent).contents = _
        rw [Rope.contents_ofString, CharClass.independent, String.toList_ofList]
      have hne := ne_nil_of_nextToken (htoken [])
      rw [List.append_nil] at hne
      refine .of_piece (p := p) ?_ ?_ ?_
      · rw [Expr.branches, hpieces]
      · rw [htext]
        exact hne
      · rw [htext]
        exact .of_token hne (startsOutside_independentChars hk) hp htoken
  | @sequence components _ hsequenceable _ _ _ ih =>
      refine .of_reads rfl ?_
      show ReadsAs (Profile.concatenation (components.map Expr.profile)).text.contents
        [Expr.piecesInRow components]
      rw [Profile.contents_concatenation, List.flatMap_map]
      apply readsAs_components
      intro e he
      obtain ⟨row, hrow⟩ := exists_branches_eq_singleton (hsequenceable e he)
      exact ⟨row, hrow, hrow ▸ (ih e he (Expr.isReadable_of_mem hr he)).reads⟩
  | @alternation alternatives hsev _ _ _ ih =>
      refine .of_reads rfl ?_
      have hne : alternatives ≠ [] :=
        ne_nil_of_several hsev
      obtain ⟨first, rest, rfl⟩ := List.exists_cons_of_ne_nil hne
      show ReadsAs (Profile.alternation ((first :: rest).map Expr.profile)).text.contents
        (Expr.branchesOfAny (first :: rest))
      rw [List.map_cons, Profile.contents_alternation, List.flatMap_map]
      exact readsAs_alternatives rest first fun e he =>
        (ih e he (Expr.isReadable_of_mem hr he)).reads
  | @quantified base quantifier mode _ _ ih =>
      refine .of_reads rfl ?_
      obtain ⟨p, hbranches, hne, hpiece⟩ := (ih hr).readsPiece base.allowed
      have htext : (Quantified.build base quantifier mode).toExpr.text.contents
          = base.expr.text.contents ++ (quantifier.text ++ mode.suffix).toList := by
        show (base.expr.text ++ Rope.ofString (quantifier.text ++ mode.suffix)).contents = _
        rw [Rope.contents_append, Rope.contents_ofString]
      have hwhole : (Quantified.build base quantifier mode).toExpr.branches
          = [[.repeated p quantifier mode]] := by
        show [(base.expr.branches.flatten.map _)] = _
        rw [hbranches]
        rfl
      rw [htext, hwhole]
      exact hpiece.repeated hne quantifier mode
  | @group kind nested _ _ ih =>
      have htext : (Group.build kind nested).toExpr.text.contents
          = kind.opening.toList ++ nested.text.contents ++ [')'] := by
        show (Rope.ofString kind.opening ++ nested.text ++ Rope.ofChar ')').contents = _
        rw [Rope.contents_append, Rope.contents_append, Rope.contents_ofString,
          Rope.contents_ofChar]
      refine .of_piece (p := .group kind.asWritten nested.branches) rfl ?_ ?_
      · rw [htext]
        exact List.append_ne_nil_of_right_ne_nil _ (List.cons_ne_nil _ _)
      · rw [htext]
        exact (ih hr).reads.group kind

/-! ## What is built of operands -/

/-- A sequence is read as one row, in which the rows of the items come one after another, whatever
    has been merged in between. -/
theorem read_sequence {items : List Sequenceable}
    (h : ∀ s ∈ items, s.expr.WellBuilt ∧ s.expr.isReadable = true) :
    read (Sequence.ofItems items).value.toExpr.render
      = some [items.flatMap (·.expr.branches.flatten)] := by
  have hrow : ∀ s ∈ items, ReadsAs s.expr.text.contents [s.expr.branches.flatten] := by
    intro s hs
    obtain ⟨row, hbranches⟩ := exists_branches_eq_singleton s.allowed
    have hreads := (readsBack (h s hs).1 (h s hs).2).reads
    rw [hbranches] at hreads ⊢
    rwa [List.flatten_singleton]
  rw [read, Expr.toList_render, Sequence.contents_ofItems fun s hs => (h s hs).1]
  exact (readsAs_flatMap hrow).readFrom_eq

theorem branchesOfAny_eq_flatMap (es : List Expr) :
    Expr.branchesOfAny es = es.flatMap Expr.branches := by
  induction es with
  | nil => rfl
  | cons e es ih => rw [Expr.branchesOfAny, ih, List.flatMap_cons]

/-- The branches of an alternation are those of its items, one after another. -/
theorem branches_alternation (items : List Alternative) :
    (Alternation.ofItems items).toExpr.branches = items.flatMap (·.expr.branches) := by
  have hoffered : ∀ e : Expr, e.alternatives.flatMap Expr.branches = e.branches := by
    intro e
    cases e with
    | alternation alternatives profile =>
        rw [Expr.alternatives, Expr.branches, branchesOfAny_eq_flatMap]
    | _ => exact List.flatMap_singleton _ _
  show Expr.branchesOfAny (items.flatMap (·.expr.alternatives)) = _
  rw [branchesOfAny_eq_flatMap, List.flatMap_assoc]
  exact List.flatMap_congr fun a _ => hoffered a.expr

/-! ## Every expression -/

/-- **Rendering can be read back.**  The pattern of a constructible expression is written out
    exactly if there is room for it, and reading it gives the normal form of the expression, unless
    that contains adopted text or a property with a closing brace in its name.  The normal form
    follows the construction: the row of a sequence is made of the rows of its items, the branches
    of an alternation are those of its items, a quantifier changes the only piece of its base, and
    a group is one piece around the branches of what it encloses. -/
theorem read_render {e : Expr} (h : e.Constructible) (hreadable : e.isReadable = true) :
    (e.checkedRender = .ok e.render ↔ Text.Fits e.render) ∧
    read e.render = some e.branches ∧
    (∀ items : List Sequenceable, e = (Sequence.ofItems items).value.toExpr →
      (∀ s ∈ items, s.expr.Constructible ∧ s.expr.isReadable = true) →
      e.branches = [items.flatMap (·.expr.branches.flatten)]) ∧
    (∀ items : List Alternative, e = (Alternation.ofItems items).toExpr →
      e.branches = items.flatMap (·.expr.branches)) ∧
    (∀ (base : Quantifiable) (q : Quantifier) (mode : Mode),
      e = (Quantified.build base q mode).toExpr →
      ∃ p, base.expr.branches = [[p]] ∧ e.branches = [[.repeated p q mode]]) ∧
    ∀ (kind : GroupKind) (nested : Expr), e = (Group.build kind nested).toExpr →
      e.branches = [[.group kind.asWritten nested.branches]] := by
  have hread : read e.render = some e.branches := by
    rw [read, Expr.toList_render]
    exact (readsBack h.wellBuilt hreadable).reads.readFrom_eq
  refine ⟨h.wellBuilt.checkedRender_eq_ok_iff, hread, ?_, ?_, ?_, ?_⟩
  · rintro items rfl hitems
    have hsequence := read_sequence fun s hs => ⟨(hitems s hs).1.wellBuilt, (hitems s hs).2⟩
    exact Option.some.inj (hread.symm.trans hsequence)
  · rintro items rfl
    exact branches_alternation items
  · rintro base q mode rfl
    have hbase : base.expr.WellBuilt := h.wellBuilt.of_mem_parts (List.mem_singleton.mpr rfl)
    obtain ⟨p, hp, -, -⟩ := (readsBack hbase hreadable).readsPiece base.allowed
    refine ⟨p, hp, ?_⟩
    show [base.expr.branches.flatten.map _] = _
    rw [hp]
    rfl
  · rintro kind nested rfl
    rfl

/-- A NUL before the bar of a captured alternative, and a mode after a count. -/
theorem read_render_in_group :
    let digits : Quantified := .build (.ofCharClass .digit) (.range 2 none) .reluctant
    let either : Alternation := .pair (Sequenceable.ofLiteral "a\x00").toAlternative
      (Sequenceable.ofQuantified digits).toAlternative
    let e : Expr := (Group.build .capture either.toExpr).toExpr
    e.Constructible ∧ e.isReadable = true ∧ e.checkedRender = .ok e.render ∧
      read e.render = some [[.group .capture [[.char 'a', .char '\x00'],
        [.repeated (.charClass (.shorthand .digit false)) (.range 2 none) .reluctant]]]] := by
  intro digits either e
  have hliteral : Script.Constructible (.literal "a\x00") := .leaf (.literal "a\x00") rfl
  have hdigit : Script.Constructible (.charClass .digit) :=
    .leaf (.predefined (.shorthand .digit)) rfl
  have hdigits : Script.Constructible (.quantified digits) :=
    .unary (.quantify (.range 2 none) .reluctant) hdigit rfl
  have heither : Script.Constructible (.alternation either) :=
    .binary .orElse hliteral hdigits rfl
  have hgroup : Script.Constructible (.group (.build .capture either.toExpr)) :=
    .unary (.wrap .capture) heither rfl
  have he : e.Constructible := .unary .toExpr hgroup rfl
  obtain ⟨hwritten, hread, -⟩ := read_render he rfl
  exact ⟨he, rfl, hwritten.mpr (by decide +kernel), hread⟩

/-- What is left of a text that is too long for words cannot be read. -/
theorem not_read_past_the_last_word :
    let e : Expr := (Sequence.pair (.ofGroup (.crowd 15)) (.ofLiteral "abcdef")).value.toExpr
    e.Constructible ∧ e.isReadable = true ∧ e.checkedRender = .ok "((((" ∧ read "((((" = none := by
  obtain ⟨g, hcrowd, hg⟩ := Group.exists_eq_crowd
  rw [hg]
  intro e
  have hunread : readFrom {} (List.replicate 4 '(') = none :=
    readFrom_openings (Or.inl (by decide))
  exact ⟨.unary .toExpr (hcrowd.constructible_sequence "abcdef") rfl, hcrowd.readable_sequence _,
    hcrowd.checkedRender_sequence.2, hunread⟩

-- a bar binds looser than a row, and a quantifier tighter
example : read "a|[^b-d&&\\d]e*" =
    some [[.char 'a'], [.charClass (.bracket true [[.range 'b' 'd'], [.shorthand .digit false]]),
      .repeated (.char 'e') .anyTimes .greedy]] := by
  cbv

end PatternAlgebra.Syntax
