import PatternAlgebra.Proofs.Construction.Oversized
import PatternAlgebra.Proofs.Sequence.Bracketing
/-!
# Nothing is lost in a sequence

Building a sequence rearranges its operands.  Nested sequences are opened, and a run of raw items
becomes one compound, in which a single character is kept as the literal of it.  The text and the
analysis are those of the operands in a row all the same, and the operands are all still there: undo
the merging in the components and in the operands, and what comes out is the same, in the same
order.

An assembly holds components and a run.  With the merging undone in both, each of its steps only
adds the item that it takes in.
-/

namespace PatternAlgebra

namespace Expr

mutual

/-- What an item of a sequence is made of: sequences and compounds are opened, and a literal of
    either kind is read as an atom. -/
def unmerged : Expr → List Expr
  | literal text => [raw (.literal text)]
  | charLiteral c => [raw (.literal (String.singleton c))]
  | raw r => r.atoms.map fun a => raw (.atom a)
  | sequence components _ => unmergedAll components
  | e => [e]

/-- What some items are made of, in order. -/
def unmergedAll : List Expr → List Expr
  | [] => []
  | e :: es => unmerged e ++ unmergedAll es

end

theorem unmergedAll_eq_flatMap (es : List Expr) : unmergedAll es = es.flatMap unmerged := by
  induction es with
  | nil => rfl
  | cons e es ih => rw [unmergedAll, List.flatMap_cons, ih]

theorem flatMap_unmerged_opened (e : Expr) : e.opened.flatMap unmerged = e.unmerged := by
  cases e with
  | sequence components profile => rw [opened, unmerged, unmergedAll_eq_flatMap]
  | _ => exact List.flatMap_singleton _ _

/-- A raw item is made of its atoms. -/
theorem unmerged_of_isRawLike {e : Expr} (h : e.isRawLike = true) :
    e.unmerged = e.atoms.map fun a => raw (.atom a) := by
  cases e with
  | literal text => rw [unmerged, atoms, List.map_singleton]; rfl
  | charLiteral c => rw [unmerged, atoms, List.map_singleton]; rfl
  | raw r => rw [unmerged, atoms]
  | _ => exact nomatch h

end Expr

/-! ## What an assembly does -/

namespace Assembly

/-- A merged run is made of what the run was made of: it has all the atoms. -/
theorem unmerged_merged {run : List Expr} (hraw : ∀ e ∈ run, e.isRawLike = true)
    (h : ∀ e ∈ run, e.WellBuilt) : (merged run).unmerged = run.flatMap Expr.unmerged := by
  obtain ⟨-, hatoms, -⟩ := merged_spec hraw h
  rw [Expr.unmerged_of_isRawLike rfl, hatoms, List.map_flatMap]
  refine List.flatMap_congr ?_
  intro e he
  exact (Expr.unmerged_of_isRawLike (hraw e he)).symm

theorem flatMap_unmerged_release {a : Assembly} (h : a.Sound) :
    a.release.items.flatMap Expr.unmerged = a.items.flatMap Expr.unmerged := by
  have hmerged : (merged a.run.toList).unmerged = a.run.toList.flatMap Expr.unmerged :=
    unmerged_merged h.run_raw fun e he => (h.run_settled e he).wellBuilt
  rcases release_cases a with ⟨-, hrelease⟩ | ⟨item, hrun, hrelease⟩ | ⟨-, hrelease⟩
  · rw [hrelease]
  · rw [hrelease, items, items, hrun]
    simp
  · rw [hrelease, items, items, List.flatMap_append, List.flatMap_append, ← hmerged]
    simp

/-- Taking in an item that is no sequence adds what it is made of. -/
theorem flatMap_unmerged_push {a : Assembly} (h : a.Sound) {item : Expr} (hitem : Settled item) :
    (a.push item).items.flatMap Expr.unmerged = a.items.flatMap Expr.unmerged ++ item.unmerged := by
  rw [push_of_notSequence a hitem.notSequence]
  by_cases hraw : item.isRawLike = true
  · rw [if_pos hraw, items_hold, List.flatMap_append, List.flatMap_singleton]
  · rw [if_neg hraw, items_settle h, List.flatMap_append, List.flatMap_singleton,
      flatMap_unmerged_release h]

theorem flatMap_unmerged_pushAll {taken : List Expr} (hsettled : ∀ e ∈ taken, Settled e)
    {a : Assembly} (h : a.Sound) :
    (a.pushAll taken).items.flatMap Expr.unmerged
      = a.items.flatMap Expr.unmerged ++ taken.flatMap Expr.unmerged := by
  induction taken generalizing a with
  | nil => rw [pushAll, List.flatMap_nil, List.append_nil]
  | cons item taken ih =>
      have hitem := hsettled item (by simp)
      have hsound := (takes_push_settled h hitem).sound
      have hrest := ih (fun e he => hsettled e (by simp [he])) hsound
      rw [pushAll, hrest, flatMap_unmerged_push h hitem, List.flatMap_cons, List.append_assoc]

end Assembly

/-! ## What is kept of the items -/

namespace Sequence

variable {items : List Sequenceable}

/-- A sequence is made of what its items are made of, in order. -/
theorem flatMap_unmerged_ofItems (h : ∀ s ∈ items, s.expr.WellBuilt) :
    (ofItems items).value.components.flatMap Expr.unmerged = items.flatMap (·.expr.unmerged) := by
  have hsettled := settled_of_mem_flatMap_opened h
  have hsound := (Assembly.takes_pushAll
    (fun c hc _ ha => Assembly.takes_push_settled ha (hsettled c hc)) Assembly.sound_empty).sound
  rw [components_ofItems, ← Assembly.items_release hsound,
    Assembly.flatMap_unmerged_release hsound,
    Assembly.flatMap_unmerged_pushAll hsettled Assembly.sound_empty, List.flatMap_assoc]
  refine List.flatMap_congr ?_
  intro s _
  exact s.expr.flatMap_unmerged_opened

/-- A sequence is written like its items one after another. -/
theorem render_ofItems (h : ∀ s ∈ items, s.expr.WellBuilt) :
    (ofItems items).value.toExpr.render = String.join (items.map (·.expr.render)) := by
  apply String.toList_inj.mp
  rw [Expr.toList_render, contents_ofItems h, String.toList_join, List.flatMap_map]
  refine List.flatMap_congr ?_
  intro s hs
  rw [Expr.toList_render]

/-- A sequence has the analysis of its items in a row. -/
theorem analysis_ofItems (h : ∀ s ∈ items, s.expr.WellBuilt) (hne : items ≠ []) :
    (ofItems items).value.toExpr.analysis
      = Analysis.concatenation (items.map (·.expr.analysis)) := by
  have hrow := (ofItems_spec h).1.analysis_eq
  rw [List.map_singleton, (wellBuilt_ofItems hne h).concatenation_analysis rfl,
    List.map_map] at hrow
  exact hrow

end Sequence

/-! ## The sequence of some operands -/

/-- What the content of a node is made of with the merging undone. -/
def Node.Content.unmerged : Node.Content → List Expr
  | expr e => e.unmerged
  | compound c => c.atoms.map fun a => .raw (.atom a)

open Script Script.Eval Bracketing

theorem exists_places {operands : List Node} (h : ∀ n ∈ operands, n.toSequenceable?.isSome) :
    ∃ ss, List.Forall₂ Places operands ss :=
  exists_forall₂_of_isSome h

/-- The calls that take a list of operands make the sequence of the items that these are, and report
    what its assembly reports. -/
theorem reports_sequence_ofItems {arity : Arity} {operands : List Node} {ss : List Sequenceable}
    (h : List.Forall₂ Places operands ss) (hseveral : 2 ≤ operands.length)
    (harity : arity = .pair → operands.length = 2) :
    ((Nary.sequence arity).build operands).Reports (.sequence (Sequence.ofItems ss).value)
      (Sequence.ofItems ss).events := by
  cases h with
  | nil => exact absurd hseveral (by simp)
  | cons hs hrest =>
      cases hrest with
      | nil => exact absurd hseveral (by simp)
      | @cons _ _ _ rest ht hrest =>
          refine reports_sequence (.cons hs (.cons ht hrest)) ?_
          intro hpair
          have htwo := harity hpair
          have hlength := hrest.length_eq
          rw [List.length_cons, List.length_cons] at htwo
          exact List.length_eq_zero_iff.mp (by omega)

theorem returns_sequence_ofItems {arity : Arity} {operands : List Node} {ss : List Sequenceable}
    (h : List.Forall₂ Places operands ss) (hseveral : 2 ≤ operands.length)
    (harity : arity = .pair → operands.length = 2) :
    ((Nary.sequence arity).build operands).Returns (.sequence (Sequence.ofItems ss).value) :=
  (reports_sequence_ofItems h hseveral harity).returns

/-- **A sequence keeps its operands.**  Every call that makes a sequence of two or more operands
    makes the same one.  Its pattern is that of the operands one after another, and it is written
    out exactly if there is room for it, in which case there is room for that of each operand; it
    has the analysis of the operands in a row, and it is made of what the operands are made of, in
    order. -/
theorem sequence_keeps_operands {operands : List Node} (hseveral : 2 ≤ operands.length)
    (hoperands : ∀ n ∈ operands, Constructible n ∧ n.toSequenceable?.isSome) :
    ∃ q : Sequence,
      (∀ arity, (arity = .pair → operands.length = 2) →
        ((Nary.sequence arity).build operands).Returns (.sequence q)) ∧
      (∀ first second, operands = [first, second] →
        (Binary.followedBy.build first second).Returns (.sequence q)) ∧
      q.toExpr.render = String.join (operands.map Node.render) ∧
      (q.toExpr.checkedRender = .ok q.toExpr.render ↔ Text.Fits q.toExpr.render) ∧
      (Text.Fits q.toExpr.render → ∀ n ∈ operands, n.checkedRender = .ok n.render) ∧
      q.toExpr.analysis = Analysis.concatenation (operands.map (·.profile.analysis)) ∧
      q.components.flatMap Expr.unmerged = operands.flatMap (·.content.unmerged) := by
  obtain ⟨ss, hplaces⟩ := exists_places fun n hn => (hoperands n hn).2
  have hwellBuilt : ∀ s ∈ ss, s.expr.WellBuilt :=
    returns_mapM_convert (fun _ _ => returns_asSequenceable)
      (fun n hn => (hoperands n hn).1.wellBuilt) (returns_mapM_asSequenceable hplaces)
  have hne : ss ≠ [] := ne_nil_of_several (hplaces.length_eq ▸ hseveral)
  have hcontent : ∀ n s, Places n s → n.content = .expr s.expr :=
    fun _ _ h => Node.content_of_toSequenceable? h
  have hprofile : ∀ n s, Places n s → n.profile = s.expr.profile :=
    fun n s h => Node.profile_of_content (hcontent n s h)
  have hrender : (Sequence.ofItems ss).value.toExpr.render
      = String.join (operands.map Node.render) := by
    rw [Sequence.render_ofItems hwellBuilt]
    refine congrArg String.join (map_eq_of_forall₂ (hplaces.imp ?_)).symm
    intro n s hs
    rw [Node.render, hprofile n s hs]
    rfl
  refine ⟨(Sequence.ofItems ss).value,
    fun arity harity => returns_sequence_ofItems hplaces hseveral harity, ?_, hrender,
    (Sequence.wellBuilt_ofItems hne hwellBuilt).checkedRender_eq_ok_iff, ?_, ?_, ?_⟩
  · rintro first second rfl
    cases hplaces with
    | cons hs hrest =>
        cases hrest with
        | cons ht hrest =>
            cases hrest
            exact returns_followedBy hs ht
  · intro hfits n hn
    rw [hrender] at hfits
    exact (hoperands n hn).1.wellBuilt.checkedRender_eq_ok_iff.mpr
      (hfits.of_mem_join (List.mem_map_of_mem hn))
  · rw [Sequence.analysis_ofItems hwellBuilt hne]
    refine congrArg Analysis.concatenation (map_eq_of_forall₂ (hplaces.imp ?_)).symm
    intro n s hs
    rw [hprofile n s hs]
    rfl
  · rw [Sequence.flatMap_unmerged_ofItems hwellBuilt]
    refine (flatMap_eq_of_forall₂ (hplaces.imp ?_)).symm
    intro n s hs
    rw [hcontent n s hs]
    rfl

/-- A run across both ends of a nested sequence, with a compound at the end of it. -/
theorem sequence_keeps_operands_of_nested :
    let inner : Sequence := (Sequence.pair (.ofChar 'b') (.ofCharClass .digit)).value
    let bounded : Raw := (Raw.entity .wordBoundary).append (.literal "d")
    let operands : List Node := [.literal "a", .sequence inner, .charLiteral 'c', .raw bounded]
    ∃ q : Sequence, ((Nary.sequence .chain).build operands).Returns (.sequence q) ∧
      q.toExpr.checkedRender = .ok (String.join (operands.map Node.render)) ∧
      q.toExpr.analysis.boundedLength = some 5 ∧
      q.components.flatMap Expr.unmerged =
        [.raw (.literal "a"), .raw (.literal "b"), .charClass .digit, .raw (.literal "c"),
          .raw (.entity .wordBoundary), .raw (.literal "d")] := by
  intro inner bounded operands
  have hb : Constructible (.charLiteral 'b') := .leaf (.charLiteral 'b') rfl
  have hdigit : Constructible (.charClass .digit) := .leaf (.predefined (.shorthand .digit)) rfl
  have hinner : Constructible (.sequence inner) := .binary .followedBy hb hdigit rfl
  have hboundary : Constructible (.entity .wordBoundary) := .leaf (.entity .wordBoundary) rfl
  have hd : Constructible (.literal "d") := .leaf (.literal "d") rfl
  have hbounded : Constructible (.raw bounded) := .binary .append hboundary hd rfl
  have hoperands : ∀ n ∈ operands, Constructible n ∧ n.toSequenceable?.isSome := by
    intro n hn
    have hn : n ∈ [Node.literal "a", .sequence inner, .charLiteral 'c', .raw bounded] := hn
    simp only [List.mem_cons, List.not_mem_nil, or_false] at hn
    rcases hn with rfl | rfl | rfl | rfl
    · exact ⟨.leaf (.literal "a") rfl, rfl⟩
    · exact ⟨hinner, rfl⟩
    · exact ⟨.leaf (.charLiteral 'c') rfl, rfl⟩
    · exact ⟨hbounded, rfl⟩
  have hseveral : 2 ≤ operands.length := by decide
  obtain ⟨q, hcalls, -, hrender, hwritten, -, hanalysis, hunmerged⟩ :=
    sequence_keeps_operands hseveral hoperands
  refine ⟨q, hcalls .chain ?_, ?_, ?_, ?_⟩
  · intro hpair
    cases hpair
  · rw [hrender] at hwritten
    exact hwritten.mpr (by decide +kernel)
  · rw [hanalysis]
    rfl
  · rw [hunmerged]
    rfl

/-- A text that is cut off in the middle of the first operand: no word holds its length. -/
theorem sequence_cut_off_past_the_last_word :
    let operands : List Node := [.group (.crowd 15), .literal "abcdef"]
    (∀ n ∈ operands, Constructible n ∧ n.toSequenceable?.isSome) ∧
    ∃ q : Sequence, ((Nary.sequence .pair).build operands).Returns (.sequence q) ∧
      q.toExpr.text.length = 4 ∧ q.toExpr.checkedRender = .ok "((((" ∧
      (String.join (operands.map Node.render)).length = wordLimit + 4 := by
  obtain ⟨g, hcrowd, hg⟩ := Group.exists_eq_crowd
  rw [hg]
  intro operands
  have hlength : (String.join (operands.map Node.render)).length = wordLimit + 4 := by
    have hgroup : (Node.group g).render.length + 2 = wordLimit := hcrowd.length_render
    have hliteral : (Node.literal "abcdef").render.length = 6 := by
      rw [← String.length_toList, Node.toList_render]
      rfl
    show (String.join [(Node.group g).render, (Node.literal "abcdef").render]).length = _
    rw [String.join_cons, String.join_cons, String.join_nil, String.append_empty,
      String.length_append, hliteral]
    omega
  have hplaces : List.Forall₂ Places operands [.ofGroup g, .ofLiteral "abcdef"] :=
    .cons rfl (.cons rfl .nil)
  obtain ⟨hshort, hrender⟩ := hcrowd.checkedRender_sequence
  refine ⟨?_, _, returns_sequence hplaces fun _ => rfl, hshort, hrender, hlength⟩
  intro n hn
  rcases List.mem_cons.mp hn with rfl | hn
  · exact ⟨hcrowd.constructible, rfl⟩
  · obtain rfl := List.mem_singleton.mp hn
    exact ⟨.leaf (.literal "abcdef") rfl, rfl⟩

end PatternAlgebra
