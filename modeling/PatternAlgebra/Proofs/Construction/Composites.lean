import PatternAlgebra.Prefab.Ipv4
import PatternAlgebra.Proofs.Construction.Classes
import PatternAlgebra.Proofs.Construction.Sequences
/-!
# Nodes with parts are well built

Every construction of a node with parts gives a well-built node, if it gives one at all, as long as
its operands are well built.  The other way round, the parts of a well-built node are well built.
-/

namespace PatternAlgebra

/-! ## Parts -/

/-- The expressions that a node is put together from. -/
def Expr.parts : Expr → List Expr
  | .sequence components _ => components
  | .alternation alternatives _ => alternatives
  | .quantified base _ _ _ => [base]
  | .group _ nested _ => [nested]
  | _ => []

theorem Expr.WellBuilt.of_mem_parts {e part : Expr} (h : e.WellBuilt) (hpart : part ∈ e.parts) :
    part.WellBuilt := by
  cases h with
  | sequence _ _ _ _ hparts => exact hparts part hpart
  | alternation _ _ _ hparts => exact hparts part hpart
  | quantified _ _ hbase =>
      obtain rfl := List.mem_singleton.mp hpart
      exact hbase
  | group _ hnested =>
      obtain rfl := List.mem_singleton.mp hpart
      exact hnested
  | literal _ => exact nomatch hpart
  | charLiteral _ => exact nomatch hpart
  | raw _ => exact nomatch hpart
  | adopted _ => exact nomatch hpart
  | charClass _ => exact nomatch hpart

theorem Expr.WellBuilt.coherent_of_raw {r : Raw} (h : (Expr.raw r).WellBuilt) : r.Coherent := by
  generalize he : Expr.raw r = e at h
  cases h with
  | raw coherent =>
      obtain rfl := Expr.raw.inj he
      exact coherent
  | _ => exact nomatch he

theorem Expr.WellBuilt.of_charClass {k : CharClass} (h : (Expr.charClass k).WellBuilt) :
    k.WellBuilt := by
  generalize he : Expr.charClass k = e at h
  cases h with
  | charClass hk =>
      obtain rfl := Expr.charClass.inj he
      exact hk
  | _ => exact nomatch he

/-! ## Sequences -/

theorem Sequence.wellBuilt_ofItems {items : List Sequenceable} (hne : items ≠ [])
    (h : ∀ s ∈ items, s.expr.WellBuilt) : (ofItems items).value.toExpr.WellBuilt :=
  (ofItems_spec h).2 hne

theorem Sequence.wellBuilt_pair {first second : Sequenceable} (h₁ : first.expr.WellBuilt)
    (h₂ : second.expr.WellBuilt) : (pair first second).value.toExpr.WellBuilt := by
  apply wellBuilt_ofItems (List.cons_ne_nil _ _)
  simp [h₁, h₂]

/-- A list of items becomes a sequence if there are at least two of them. -/
theorem Sequence.ofList_eq_ok_iff {items : List Sequenceable} {s : Sequence} :
    (ofList items).value = .ok s ↔ 2 ≤ items.length ∧ (ofItems items).value = s := by
  unfold ofList
  by_cases hlength : items.length < 2
  · rw [if_pos hlength]
    constructor
    · exact fun h => nomatch (show (Except.error _ : Except BuildError Sequence) = .ok s from h)
    · exact fun h => absurd h.1 (Nat.not_le.mpr hlength)
  · rw [if_neg hlength]
    constructor
    · exact fun h => ⟨Nat.not_lt.mp hlength, Except.ok.inj h⟩
    · exact fun h => congrArg Except.ok h.2

theorem Sequence.wellBuilt_ofList {items : List Sequenceable} {s : Sequence}
    (h : ∀ i ∈ items, i.expr.WellBuilt) (hs : (ofList items).value = .ok s) :
    s.toExpr.WellBuilt := by
  obtain ⟨hseveral, rfl⟩ := ofList_eq_ok_iff.mp hs
  exact wellBuilt_ofItems (ne_nil_of_several hseveral) h

/-! ## Alternations -/

/-- An expression offers some alternatives, and they are well built and not alternations. -/
theorem Expr.WellBuilt.alternatives {e : Expr} (h : e.WellBuilt) (ha : e.isAlternative = true) :
    e.alternatives ≠ [] ∧
      ∀ a ∈ e.alternatives, a.isAlternative = true ∧ a.isAlternation = false ∧ a.WellBuilt := by
  cases hk : e.isAlternation with
  | false =>
      have hself : e.alternatives = [e] := by
        cases e <;> first | rfl | exact absurd hk (by simp [Expr.isAlternation])
      rw [hself]
      exact ⟨List.cons_ne_nil _ _, by simp [ha, hk, h]⟩
  | true =>
      cases h with
      | @alternation alternatives hsev halt hflat hparts =>
          exact ⟨ne_nil_of_several hsev,
            fun a hmem => ⟨halt a hmem, hflat a hmem, hparts a hmem⟩⟩
      | _ => exact nomatch hk

/-- Some alternatives for each item are at least as many alternatives as items. -/
theorem length_le_length_flatMap_alternatives {items : List Alternative}
    (h : ∀ a ∈ items, a.expr.WellBuilt) :
    items.length ≤ (items.flatMap (·.expr.alternatives)).length := by
  induction items with
  | nil => exact Nat.le_refl _
  | cons a items ih =>
      have hfirst : 0 < a.expr.alternatives.length :=
        List.length_pos_iff.mpr ((h a (by simp)).alternatives a.allowed).1
      have hrest := ih fun b hb => h b (by simp [hb])
      rw [List.flatMap_cons, List.length_append, List.length_cons]
      omega

theorem Alternation.wellBuilt_ofItems {items : List Alternative} (hsev : 2 ≤ items.length)
    (h : ∀ a ∈ items, a.expr.WellBuilt) : (ofItems items).toExpr.WellBuilt := by
  have hall : ∀ e ∈ items.flatMap (·.expr.alternatives),
      e.isAlternative = true ∧ e.isAlternation = false ∧ e.WellBuilt := by
    intro e he
    obtain ⟨a, ha, hmem⟩ := List.mem_flatMap.mp he
    exact ((h a ha).alternatives a.allowed).2 e hmem
  exact .alternation (Nat.le_trans hsev (length_le_length_flatMap_alternatives h))
    (fun e he => (hall e he).1) (fun e he => (hall e he).2.1) fun e he => (hall e he).2.2

theorem Alternation.wellBuilt_pair {first second : Alternative} (h₁ : first.expr.WellBuilt)
    (h₂ : second.expr.WellBuilt) : (pair first second).toExpr.WellBuilt := by
  apply wellBuilt_ofItems (Nat.le_refl _)
  simp [h₁, h₂]

/-- A list of items becomes an alternation if there are at least two of them. -/
theorem Alternation.ofList_eq_ok_iff {items : List Alternative} {a : Alternation} :
    ofList items = .ok a ↔ 2 ≤ items.length ∧ ofItems items = a := by
  unfold ofList
  by_cases hlength : items.length < 2
  · rw [if_pos hlength]
    constructor
    · exact fun h => nomatch h
    · exact fun h => absurd h.1 (Nat.not_le.mpr hlength)
  · rw [if_neg hlength]
    constructor
    · exact fun h => ⟨Nat.not_lt.mp hlength, Except.ok.inj h⟩
    · exact fun h => congrArg Except.ok h.2

theorem Alternation.wellBuilt_ofList {items : List Alternative} {a : Alternation}
    (h : ∀ i ∈ items, i.expr.WellBuilt) (ha : ofList items = .ok a) : a.toExpr.WellBuilt := by
  obtain ⟨hseveral, rfl⟩ := ofList_eq_ok_iff.mp ha
  exact wellBuilt_ofItems hseveral h

/-! ## Repetitions and groups -/

namespace Quantifier

/-- The counts are within the limit, and the minimum is not above the maximum. -/
def WithinLimits : Quantifier → Prop
  | exactly count => count ≤ maxRepetitions
  | range min none => min ≤ maxRepetitions
  | range min (some max) => min ≤ maxRepetitions ∧ max ≤ maxRepetitions ∧ min ≤ max
  | _ => True

theorem checkCount_eq_ok_iff {count : Nat} :
    checkCount count = .ok () ↔ count ≤ maxRepetitions := by
  simp [checkCount]

/-- A quantifier passes its check if it is within the limits, and only then. -/
theorem check_eq_ok_iff {q : Quantifier} : q.check = .ok () ↔ q.WithinLimits := by
  cases q with
  | anyTimes => exact ⟨fun _ => trivial, fun _ => rfl⟩
  | atLeastOnce => exact ⟨fun _ => trivial, fun _ => rfl⟩
  | optional => exact ⟨fun _ => trivial, fun _ => rfl⟩
  | exactly count => exact checkCount_eq_ok_iff
  | range min max =>
      cases max with
      | none => exact checkCount_eq_ok_iff
      | some max =>
          have horder : (if max < min then throw (.invertedRepetitionRange min max) else pure () :
              Except BuildError Unit) = .ok () ↔ min ≤ max := by
            split
            · rename_i hlt
              exact ⟨fun h => (nomatch h), fun hle => absurd hlt (Nat.not_lt.mpr hle)⟩
            · rename_i hnlt
              exact ⟨fun _ => Nat.not_lt.mp hnlt, fun _ => rfl⟩
          constructor
          · intro h
            obtain ⟨_, hmin, h⟩ := bind_eq_ok_iff.mp h
            obtain ⟨_, hmax, h⟩ := bind_eq_ok_iff.mp h
            exact ⟨checkCount_eq_ok_iff.mp hmin, checkCount_eq_ok_iff.mp hmax, horder.mp h⟩
          · rintro ⟨hmin, hmax, hle⟩
            refine bind_eq_ok_iff.mpr ⟨(), checkCount_eq_ok_iff.mpr hmin, ?_⟩
            exact bind_eq_ok_iff.mpr ⟨(), checkCount_eq_ok_iff.mpr hmax, horder.mpr hle⟩

end Quantifier

/-- A quantifier that is applied has passed its check. -/
theorem Quantified.apply_eq_ok {base : Quantifiable} {quantifier : Quantifier} {mode : Mode}
    {q : Quantified} (hq : apply base quantifier mode = .ok q) :
    quantifier.check = .ok () ∧ q = build base quantifier mode := by
  unfold apply at hq
  cases hcheck : quantifier.check with
  | error e =>
      rw [hcheck] at hq
      exact nomatch hq
  | ok u =>
      rw [hcheck] at hq
      exact ⟨rfl, (Except.ok.inj hq).symm⟩

theorem Quantified.wellBuilt_apply {base : Quantifiable} {quantifier : Quantifier} {mode : Mode}
    {q : Quantified} (h : base.expr.WellBuilt) (hq : apply base quantifier mode = .ok q) :
    q.toExpr.WellBuilt := by
  obtain ⟨hcheck, rfl⟩ := apply_eq_ok hq
  exact .quantified mode hcheck h

theorem Group.ofKind_of_bounded {kind : GroupKind} {nested : Expr}
    (h : kind.isLookBehind = true → nested.analysis.boundedLength ≠ none) :
    ofKind kind nested = .ok (pure (.ok (build kind nested))) :=
  if_neg fun hrefused => h hrefused.1 hrefused.2

/-- A look-behind is refused with the text of what it should enclose, if that can be written out. -/
theorem Group.ofKind_of_unbounded {kind : GroupKind} {nested : Expr}
    (hkind : kind.isLookBehind = true) (hbound : nested.analysis.boundedLength = none) :
    ofKind kind nested = refusal <$> nested.checkedRender :=
  if_pos ⟨hkind, hbound⟩

/-- A group that is made is the one asked for, and a look-behind among them has a bound. -/
theorem Group.ofKind_eq_ok {kind : GroupKind} {nested : Expr} {g : Group}
    (hg : ∃ made, ofKind kind nested = .ok made ∧ made.value = .ok g) :
    (kind.isLookBehind = true → nested.analysis.boundedLength ≠ none) ∧ g = build kind nested := by
  obtain ⟨made, hmade, hg⟩ := hg
  by_cases hrefused : kind.isLookBehind = true ∧ nested.analysis.boundedLength = none
  · rw [ofKind_of_unbounded hrefused.1 hrefused.2] at hmade
    cases htext : nested.checkedRender with
    | error fault =>
        rw [htext] at hmade
        exact nomatch hmade
    | ok text =>
        rw [htext] at hmade
        obtain rfl := Except.ok.inj hmade
        exact nomatch hg
  · have hbounded : kind.isLookBehind = true → nested.analysis.boundedLength ≠ none :=
      fun hkind hbound => hrefused ⟨hkind, hbound⟩
    rw [ofKind_of_bounded hbounded] at hmade
    obtain rfl := Except.ok.inj hmade
    exact ⟨hbounded, (Except.ok.inj hg).symm⟩

theorem Group.wellBuilt_ofKind {kind : GroupKind} {nested : Expr} {g : Group}
    (h : nested.WellBuilt) (hg : ∃ made, ofKind kind nested = .ok made ∧ made.value = .ok g) :
    g.toExpr.WellBuilt := by
  obtain ⟨hbound, rfl⟩ := ofKind_eq_ok hg
  exact .group hbound h

/-- A group that looks at no text before it is well built, whatever it encloses. -/
theorem Group.wellBuilt_build {kind : GroupKind} {nested : Expr} (hk : kind.isLookBehind = false)
    (h : nested.WellBuilt) : (build kind nested).toExpr.WellBuilt := by
  refine .group ?_ h
  rw [hk]
  exact fun hfalse => nomatch hfalse

/-- A group is written as its opening parenthesis, what it encloses and a closing one. -/
theorem Group.render_build (kind : GroupKind) (e : Expr) :
    (Group.build kind e).toExpr.render = kind.opening ++ e.render ++ ")" := by
  have htext : (Group.build kind e).toExpr.text
      = Rope.ofString kind.opening ++ e.text ++ Rope.ofChar ')' := rfl
  apply String.toList_inj.mp
  have hclosing : (")" : String).toList = [')'] := rfl
  rw [Expr.toList_render, htext, Rope.contents_append, Rope.contents_append,
    Rope.contents_ofString, Rope.contents_ofChar, String.toList_append, String.toList_append,
    Expr.toList_render, hclosing]

theorem Expr.WellBuilt.render_group {kind : GroupKind} {nested : Expr} {profile : Profile}
    (h : (Expr.group kind nested profile).WellBuilt) :
    (Expr.group kind nested profile).render = kind.opening ++ nested.render ++ ")" := by
  cases h with
  | group _ _ => exact Group.render_build _ _

/-! ## Addresses -/

namespace Ipv4

theorem digit_wellBuilt : digit.expr.WellBuilt := .charClass (.shorthand .digit false)

theorem digits_wellBuilt {first last : Char} (h : first ≤ last) :
    (digits first last).expr.WellBuilt := .charClass (.range h)

theorem twoDigits_wellBuilt : twoDigits.expr.WellBuilt :=
  .quantified .greedy rfl (.charClass (.shorthand .digit false))

/-- Every alternative of an octet is a pair of well-built items, or a digit. -/
theorem octet_wellBuilt : octet.value.toExpr.WellBuilt := by
  have hdigit := digit_wellBuilt
  have hone : (Sequenceable.ofChar '1').expr.WellBuilt := .charLiteral '1'
  have htwo : (Sequenceable.ofChar '2').expr.WellBuilt := .charLiteral '2'
  have htwentyFive : (Sequenceable.ofLiteral "25").expr.WellBuilt := .literal "25"
  have hbelowFifty : (Sequenceable.ofSequence (Sequence.pair (.ofChar '2')
      (digits '0' '4')).value).expr.WellBuilt :=
    Sequence.wellBuilt_pair htwo (digits_wellBuilt (by decide))
  have htens := Sequence.wellBuilt_pair (digits_wellBuilt (show '1' ≤ '9' by decide)) hdigit
  have hhundreds := Sequence.wellBuilt_pair hone twoDigits_wellBuilt
  have htwoHundreds := Sequence.wellBuilt_pair hbelowFifty hdigit
  have hfifties := Sequence.wellBuilt_pair htwentyFive
    (digits_wellBuilt (show '0' ≤ '5' by decide))
  apply Alternation.wellBuilt_ofItems (by simp)
  intro a ha
  simp only [List.mem_cons, List.not_mem_nil, or_false] at ha
  rcases ha with rfl | rfl | rfl | rfl | rfl
  · exact hdigit
  · exact htens
  · exact hhundreds
  · exact htwoHundreds
  · exact hfifties

theorem capturedOctet_wellBuilt : capturedOctet.value.expr.WellBuilt :=
  Group.wellBuilt_build rfl octet_wellBuilt

theorem dottedDecimal_wellBuilt : dottedDecimal.value.toExpr.WellBuilt := by
  apply Sequence.wellBuilt_ofItems (List.cons_ne_nil _ _)
  intro s hs
  simp only [List.mem_cons, List.not_mem_nil, or_false] at hs
  rcases hs with rfl | rfl | rfl | rfl | rfl | rfl | rfl
  · exact capturedOctet_wellBuilt
  · exact .charLiteral '.'
  · exact capturedOctet_wellBuilt
  · exact .charLiteral '.'
  · exact capturedOctet_wellBuilt
  · exact .charLiteral '.'
  · exact capturedOctet_wellBuilt

end Ipv4

end PatternAlgebra
