import PatternAlgebra.Proofs.Construction.Interchange
import PatternAlgebra.Proofs.Sequence.Runs
/-!
# Sequences do not depend on bracketing

A list of operands can be put into one sequence at once, or some of them first into sequences that
are then put into others, with any of the calls that make sequences.  The outcome is always the
same sequence, with the same text and the same analysis.

What makes this so is that a nested sequence stands for its operands: taken in by an assembly, its
components do to a row what its operands would do.  This is an invariant of the nesting, and at the
top it pins down the components.
-/

namespace PatternAlgebra

open Script Script.Eval

/-- A way to put operands into nested sequences of two or more items each. -/
inductive Bracketing where
  /-- No sequence, but an operand of one. -/
  | operand (n : Node)
  /-- Two items. -/
  | pair (first second : Bracketing)
  /-- One item followed by another. -/
  | followedBy (first second : Bracketing)
  /-- Two items and any number more. -/
  | chain (first second : Bracketing) (rest : List Bracketing)
  /-- Items in a list of which the length is checked. -/
  | list (first second : Bracketing) (rest : List Bracketing)

namespace Bracketing

mutual

/-- The operands from left to right. -/
def operands : Bracketing → List Node
  | operand n => [n]
  | pair first second => operands first ++ operands second
  | followedBy first second => operands first ++ operands second
  | chain first second rest => operands first ++ (operands second ++ operandsAll rest)
  | list first second rest => operands first ++ (operands second ++ operandsAll rest)

/-- The operands of all items from left to right. -/
def operandsAll : List Bracketing → List Node
  | [] => []
  | b :: bs => operands b ++ operandsAll bs

end

mutual

/-- The sequence that is built, or the operand alone. -/
def build : Bracketing → Eval Node
  | operand n => pure n
  | pair first second => do
    let a ← build first
    let b ← build second
    (Nary.sequence .pair).build [a, b]
  | followedBy first second => do
    let a ← build first
    let b ← build second
    Binary.followedBy.build a b
  | chain first second rest => do
    let a ← build first
    let b ← build second
    let cs ← buildAll rest
    (Nary.sequence .chain).build (a :: b :: cs)
  | list first second rest => do
    let a ← build first
    let b ← build second
    let cs ← buildAll rest
    (Nary.sequence .list).build (a :: b :: cs)

/-- The sequences of all items. -/
def buildAll : List Bracketing → Eval (List Node)
  | [] => pure []
  | b :: bs => do
    let a ← build b
    let rest ← buildAll bs
    return a :: rest

end

end Bracketing

/-! ## Standing for operands -/

/-- The components that some items bring into a sequence, without profiles. -/
def broughtIn (items : List Sequenceable) : List Expr :=
  (items.flatMap (·.expr.opened)).map Expr.bare

theorem broughtIn_append (xs ys : List Sequenceable) :
    broughtIn (xs ++ ys) = broughtIn xs ++ broughtIn ys := by
  rw [broughtIn, List.flatMap_append, List.map_append]
  rfl

/-- Some items read and match like other ones, and do the same to a row that they come before. -/
structure StandsFor (items operands : List Sequenceable) : Prop where
  wellBuilt : ∀ s ∈ items, s.expr.WellBuilt
  alike : Alike (items.map Sequenceable.expr) (operands.map Sequenceable.expr)
  merges : ∀ rest, (broughtIn items).foldr Expr.glue rest
    = (broughtIn operands).foldr Expr.glue rest

/-- A sequence is what merging makes of some operands. -/
structure Sequence.Merges (q : Sequence) (operands : List Sequenceable) : Prop where
  wellBuilt : q.toExpr.WellBuilt
  alike : Alike [q.toExpr] (operands.map Sequenceable.expr)
  components : q.components.map Expr.bare = Expr.mergeRuns (broughtIn operands)

namespace StandsFor

theorem refl {items : List Sequenceable} (h : ∀ s ∈ items, s.expr.WellBuilt) :
    StandsFor items items := ⟨h, .refl _, fun _ => rfl⟩

theorem append {xs ys xs' ys' : List Sequenceable} (h : StandsFor xs ys)
    (h' : StandsFor xs' ys') : StandsFor (xs ++ xs') (ys ++ ys') where
  wellBuilt := by
    intro s hs
    rcases List.mem_append.mp hs with hs | hs
    · exact h.wellBuilt s hs
    · exact h'.wellBuilt s hs
  alike := by
    rw [List.map_append, List.map_append]
    exact h.alike.append h'.alike
  merges := by
    intro rest
    rw [broughtIn_append, broughtIn_append, List.foldr_append, List.foldr_append, h'.merges,
      h.merges]

/-- The sequence of items that stand for operands is what merging makes of the operands. -/
theorem merges_ofItems {items operands : List Sequenceable} (h : StandsFor items operands)
    (hne : items ≠ []) : (Sequence.ofItems items).value.Merges operands := by
  obtain ⟨halike, hwellBuilt⟩ := Sequence.ofItems_spec h.wellBuilt
  refine ⟨hwellBuilt hne, halike.trans h.alike, ?_⟩
  rw [Sequence.bare_components_ofItems h.wellBuilt]
  exact h.merges []

end StandsFor

namespace Sequence.Merges

variable {q r : Sequence} {operands : List Sequenceable}

/-- A sequence inside another stands for its operands, although runs of them are merged by now. -/
theorem standsFor (h : q.Merges operands) : StandsFor [.ofSequence q] operands where
  wellBuilt := by
    intro s hs
    obtain rfl := List.mem_singleton.mp hs
    exact h.wellBuilt
  alike := h.alike
  merges := by
    intro rest
    have hbrought : broughtIn [.ofSequence q] = q.components.map Expr.bare := by
      rw [broughtIn, List.flatMap_singleton]
      rfl
    rw [hbrought, h.components, Expr.foldr_glue_mergeRuns]

theorem beq (hq : q.Merges operands) (hr : r.Merges operands) : (q == r) = true := by
  show Expr.sameAll q.components r.components = true
  rw [Expr.sameAll_iff_bareAll_eq, Expr.bareAll_eq_map, Expr.bareAll_eq_map, hq.components,
    hr.components]

theorem render_eq (hq : q.Merges operands) (hr : r.Merges operands) :
    q.toExpr.render = r.toExpr.render := by
  have hcontents := (hq.alike.trans hr.alike.symm).contents_eq
  rw [List.flatMap_singleton, List.flatMap_singleton] at hcontents
  exact congrArg String.ofList hcontents

theorem analysis_eq (hq : q.Merges operands) (hr : r.Merges operands) :
    q.toExpr.analysis = r.toExpr.analysis := by
  have hrow := (hq.alike.trans hr.alike.symm).analysis_eq
  rw [List.map_singleton, List.map_singleton, hq.wellBuilt.concatenation_analysis rfl,
    hr.wellBuilt.concatenation_analysis rfl] at hrow
  exact hrow

end Sequence.Merges

/-! ## Building -/

namespace Bracketing

/-- The node is the given item. -/
def Places (n : Node) (s : Sequenceable) : Prop := n.toSequenceable? = some s

/-- The items that some nodes are. -/
def items (ns : List Node) : List Sequenceable := ns.filterMap Node.toSequenceable?

theorem returns_mapM_asSequenceable {ns : List Node} {ss : List Sequenceable}
    (h : List.Forall₂ Places ns ss) : (ns.mapM asSequenceable).Returns ss := by
  rw [returns_mapM]
  exact h.imp fun _ _ hs => returns_require.mpr hs

/-- Conversions are made without a word. -/
theorem reports_asSequenceable {n : Node} {s : Sequenceable} (h : Places n s) :
    (asSequenceable n).Reports s [] := by
  rw [asSequenceable, show n.toSequenceable? = some s from h]
  exact reports_pure s

/-- Any number of items that is checked and found to be at least two. -/
theorem ofList_of_several (s t : Sequenceable) (rest : List Sequenceable) :
    Sequence.ofList (s :: t :: rest)
      = ⟨.ok (Sequence.ofItems (s :: t :: rest)).value,
          (Sequence.ofItems (s :: t :: rest)).events⟩ := by
  rw [Sequence.ofList, if_neg (by simp)]
  generalize Sequence.ofItems (s :: t :: rest) = made
  show (⟨.ok made.value, made.events ++ []⟩ : Logged (Except BuildError Sequence)) = _
  rw [List.append_nil]

/-- Items of two or more nodes that are put into a sequence by any call become the same one, and
    nothing is reported but what the assembly of it reports. -/
theorem reports_sequence {arity : Arity} {ns : List Node} {s t : Sequenceable}
    {rest : List Sequenceable} (h : List.Forall₂ Places ns (s :: t :: rest))
    (harity : arity = .pair → rest = []) :
    ((Nary.sequence arity).build ns).Reports (.sequence (Sequence.ofItems (s :: t :: rest)).value)
      (Sequence.ofItems (s :: t :: rest)).events := by
  have hitems : (ns.mapM asSequenceable).Reports (s :: t :: rest) [] :=
    reports_mapM (h.imp fun _ _ => reports_asSequenceable)
  suffices hsequence : (sequenceOf arity (s :: t :: rest)).Reports
      (Sequence.ofItems (s :: t :: rest)).value (Sequence.ofItems (s :: t :: rest)).events from
    hitems.bind (hsequence.map Node.sequence)
  cases arity with
  | pair =>
      obtain rfl := harity rfl
      exact reports_logging (Sequence.pair s t)
  | chain => exact reports_logging (Sequence.chain s t rest)
  | list =>
      have hlist := ofList_of_several s t rest
      have hbuilding := reports_building (congrArg Logged.value hlist)
      rwa [congrArg Logged.events hlist] at hbuilding

theorem reports_followedBy {n m : Node} {s t : Sequenceable} (hs : Places n s) (ht : Places m t) :
    (Binary.followedBy.build n m).Reports (.sequence (Sequence.ofItems [s, t]).value)
      (Sequence.ofItems [s, t]).events :=
  (reports_asSequenceable hs).bind <| (reports_asSequenceable ht).bind <|
    (reports_logging (Sequence.pair s t)).map Node.sequence

theorem returns_sequence {arity : Arity} {ns : List Node} {s t : Sequenceable}
    {rest : List Sequenceable} (h : List.Forall₂ Places ns (s :: t :: rest))
    (harity : arity = .pair → rest = []) :
    ((Nary.sequence arity).build ns).Returns
      (.sequence (Sequence.ofItems (s :: t :: rest)).value) :=
  (reports_sequence h harity).returns

theorem returns_followedBy {n m : Node} {s t : Sequenceable} (hs : Places n s) (ht : Places m t) :
    (Binary.followedBy.build n m).Returns (.sequence (Sequence.ofItems [s, t]).value) :=
  (reports_followedBy hs ht).returns

/-- An operand of a sequence. -/
def Suitable (n : Node) : Prop := n.WellBuilt ∧ ∃ s, Places n s

theorem Suitable.wellBuilt {n : Node} (h : Suitable n) {s : Sequenceable} (hs : Places n s) :
    s.expr.WellBuilt :=
  h.1.of_content_eq (Node.content_of_toSequenceable? hs)

/-- What has been built: an item that stands for the operands, and if there are two or more of
    them, a sequence of them. -/
structure Builds (n : Node) (s : Sequenceable) (operands : List Node) : Prop where
  places : Places n s
  standsFor : StandsFor [s] (items operands)
  sequence : 2 ≤ operands.length → ∃ q : Sequence, n = .sequence q ∧ q.Merges (items operands)

theorem builds_operand {n : Node} (h : Suitable n) : ∃ s, Builds n s [n] := by
  obtain ⟨s, hs⟩ := h.2
  have hitems : items [n] = [s] := List.filterMap_cons_some hs
  refine ⟨s, hs, ?_, fun hseveral => absurd hseveral (by simp)⟩
  rw [hitems]
  refine .refl ?_
  intro t ht
  rw [List.mem_singleton.mp ht]
  exact h.wellBuilt hs

/-- A sequence of items that stand for operands. -/
theorem builds_sequence {ss : List Sequenceable} {operands : List Node} (hne : ss ≠ [])
    (h : StandsFor ss (items operands)) :
    Builds (.sequence (Sequence.ofItems ss).value) (.ofSequence (Sequence.ofItems ss).value)
      operands :=
  ⟨rfl, (h.merges_ofItems hne).standsFor, fun _ => ⟨_, rfl, h.merges_ofItems hne⟩⟩

theorem items_append (xs ys : List Node) : items (xs ++ ys) = items xs ++ items ys :=
  List.filterMap_append

theorem standsFor_cons {s : Sequenceable} {ss : List Sequenceable} {xs ys : List Node}
    (h : StandsFor [s] (items xs)) (h' : StandsFor ss (items ys)) :
    StandsFor (s :: ss) (items (xs ++ ys)) := by
  rw [items_append]
  exact h.append h'

/-- A computation has an item of a sequence of the operands as its value. -/
def CanBuild (c : Eval Node) (operands : List Node) : Prop :=
  ∃ n s, c.Returns n ∧ Builds n s operands

/-- A computation has items as its value that stand for the operands. -/
def CanBuildAll (c : Eval (List Node)) (operands : List Node) : Prop :=
  ∃ ns ss, c.Returns ns ∧ List.Forall₂ Places ns ss ∧ StandsFor ss (items operands)

/-- Two items that are built one after another, by any call that makes a sequence of them. -/
theorem canBuild_two {join : Node → Node → Eval Node}
    (hjoin : ∀ {n m : Node} {s t : Sequenceable}, Places n s → Places m t →
      (join n m).Returns (.sequence (Sequence.ofItems [s, t]).value))
    {first second : Eval Node} {xs ys : List Node} (h : CanBuild first xs)
    (h' : CanBuild second ys) :
    CanBuild (do
      let a ← first
      let b ← second
      join a b) (xs ++ ys) := by
  obtain ⟨n, s, hn, hs⟩ := h
  obtain ⟨m, t, hm, ht⟩ := h'
  refine ⟨_, _, ?_, builds_sequence (List.cons_ne_nil s [t])
    (standsFor_cons hs.standsFor ht.standsFor)⟩
  exact returns_bind.mpr ⟨n, hn, returns_bind.mpr ⟨m, hm, hjoin hs.places ht.places⟩⟩

/-- A row of two or more items that are built one after another, by a chain or from a list. -/
theorem canBuild_row (arity : Arity) (harity : arity ≠ .pair) {first second : Eval Node}
    {rest : Eval (List Node)} {xs ys zs : List Node} (h : CanBuild first xs)
    (h' : CanBuild second ys) (hrest : CanBuildAll rest zs) :
    CanBuild (do
      let a ← first
      let b ← second
      let cs ← rest
      (Nary.sequence arity).build (a :: b :: cs)) (xs ++ (ys ++ zs)) := by
  obtain ⟨n, s, hn, hs⟩ := h
  obtain ⟨m, t, hm, ht⟩ := h'
  obtain ⟨ns, ss, hns, hplaces, hss⟩ := hrest
  refine ⟨_, _, ?_, builds_sequence (List.cons_ne_nil s (t :: ss))
    (standsFor_cons hs.standsFor (standsFor_cons ht.standsFor hss))⟩
  refine returns_bind.mpr ⟨n, hn, returns_bind.mpr ⟨m, hm, returns_bind.mpr ⟨ns, hns, ?_⟩⟩⟩
  exact returns_sequence (.cons hs.places (.cons ht.places hplaces)) fun hpair =>
    absurd hpair harity

mutual

/-- Every bracketing of suitable operands can be built. -/
theorem build_spec : ∀ b : Bracketing, (∀ n ∈ b.operands, Suitable n) →
    CanBuild b.build b.operands
  | operand n, h => by
    obtain ⟨s, hs⟩ := builds_operand (h n (by simp [operands]))
    exact ⟨n, s, by rw [build, returns_pure], by rw [operands]; exact hs⟩
  | pair first second, h => by
    simp only [operands] at h ⊢
    rw [build]
    exact canBuild_two (fun hs ht => returns_sequence (.cons hs (.cons ht .nil)) fun _ => rfl)
      (build_spec first fun k hk => h k (List.mem_append_left _ hk))
      (build_spec second fun k hk => h k (List.mem_append_right _ hk))
  | followedBy first second, h => by
    simp only [operands] at h ⊢
    rw [build]
    exact canBuild_two returns_followedBy
      (build_spec first fun k hk => h k (List.mem_append_left _ hk))
      (build_spec second fun k hk => h k (List.mem_append_right _ hk))
  | chain first second rest, h => by
    simp only [operands] at h ⊢
    rw [build]
    exact canBuild_row .chain (fun hpair => nomatch hpair)
      (build_spec first fun k hk => h k (by simp [hk]))
      (build_spec second fun k hk => h k (by simp [hk]))
      (buildAll_spec rest fun k hk => h k (by simp [hk]))
  | list first second rest, h => by
    simp only [operands] at h ⊢
    rw [build]
    exact canBuild_row .list (fun hpair => nomatch hpair)
      (build_spec first fun k hk => h k (by simp [hk]))
      (build_spec second fun k hk => h k (by simp [hk]))
      (buildAll_spec rest fun k hk => h k (by simp [hk]))

theorem buildAll_spec : ∀ bs : List Bracketing, (∀ n ∈ operandsAll bs, Suitable n) →
    CanBuildAll (buildAll bs) (operandsAll bs)
  | [], _ => by
    refine ⟨[], [], ?_, .nil, ?_⟩
    · rw [buildAll, returns_pure]
    · rw [operandsAll]
      exact .refl fun s hs => nomatch hs
  | b :: bs, h => by
    simp only [operandsAll] at h ⊢
    obtain ⟨n, s, hn, hs⟩ := build_spec b fun k hk => h k (List.mem_append_left _ hk)
    obtain ⟨ns, ss, hns, hplaces, hss⟩ := buildAll_spec bs fun k hk =>
      h k (List.mem_append_right _ hk)
    refine ⟨n :: ns, s :: ss, ?_, .cons hs.places hplaces, standsFor_cons hs.standsFor hss⟩
    rw [buildAll]
    exact returns_bind.mpr ⟨n, hn, returns_bind.mpr ⟨ns, hns, returns_pure.mpr rfl⟩⟩

end

/-! ## Any two bracketings -/

/-- **Any two bracketings of the same operands agree.**  At least two operands build equal
    sequences with the same text and the same analysis.  If there is room for the text, both are
    written out in full, and as long as no compound has more characters than there are words, the
    outcome of writing them is the same also where there is none. -/
theorem sequence_eq_of_operands_eq {x y : Bracketing} (hsame : x.operands = y.operands)
    (hseveral : 2 ≤ x.operands.length)
    (hoperands : ∀ n ∈ x.operands, Constructible n ∧ n.toSequenceable?.isSome) :
    ∃ q r : Sequence, x.build.Returns (.sequence q) ∧ y.build.Returns (.sequence r) ∧
      (q == r) = true ∧ q.toExpr.render = r.toExpr.render ∧
      q.toExpr.analysis = r.toExpr.analysis ∧
      (Text.Fits q.toExpr.render → q.toExpr.checkedRender = .ok q.toExpr.render ∧
        r.toExpr.checkedRender = .ok q.toExpr.render) ∧
      (q.toExpr.HasShortCompounds → q.toExpr.checkedRender = r.toExpr.checkedRender) := by
  have hsuitable : ∀ n ∈ x.operands, Suitable n := by
    intro n hn
    obtain ⟨hconstructible, hsome⟩ := hoperands n hn
    exact ⟨hconstructible.wellBuilt, Option.isSome_iff_exists.mp hsome⟩
  obtain ⟨n, _, hn, hbuilds⟩ := build_spec x hsuitable
  obtain ⟨m, _, hm, hbuilds'⟩ := build_spec y (hsame ▸ hsuitable)
  obtain ⟨q, rfl, hq⟩ := hbuilds.sequence hseveral
  obtain ⟨r, rfl, hr⟩ := hbuilds'.sequence (hsame ▸ hseveral)
  rw [← hsame] at hr
  have hrender := hq.render_eq hr
  refine ⟨q, r, hn, hm, hq.beq hr, hrender, hq.analysis_eq hr, fun hfits => ⟨?_, ?_⟩, ?_⟩
  · exact hq.wellBuilt.checkedRender_eq_ok_iff.mpr hfits
  · rw [hrender] at hfits ⊢
    exact hr.wellBuilt.checkedRender_eq_ok_iff.mpr hfits
  · exact hq.wellBuilt.checkedRender_eq hr.wellBuilt (hq.beq hr)

/-- A run that crosses the end of a nested sequence, merged inside and then outside or at once. -/
theorem sequence_eq_across_a_run :
    let a : Bracketing := .operand (.literal "a")
    let b : Bracketing := .operand (.charLiteral 'b')
    let c : Bracketing := .operand (.entity .anyChar)
    let d : Bracketing := .operand (.charClass .digit)
    ∃ q r : Sequence, (chain (pair a b) c [d]).build.Returns (.sequence q) ∧
      (followedBy a (list b (pair c d) [])).build.Returns (.sequence r) ∧
      (q == r) = true ∧ q.toExpr.render = r.toExpr.render ∧
      q.toExpr.analysis = r.toExpr.analysis := by
  intro a b c d
  have hoperands : ∀ n ∈ (chain (pair a b) c [d]).operands,
      Constructible n ∧ n.toSequenceable?.isSome := by
    intro n hn
    have hn : n ∈ [Node.literal "a", .charLiteral 'b', .entity .anyChar, .charClass .digit] := hn
    simp only [List.mem_cons, List.not_mem_nil, or_false] at hn
    rcases hn with rfl | rfl | rfl | rfl
    · exact ⟨.leaf (.literal "a") rfl, rfl⟩
    · exact ⟨.leaf (.charLiteral 'b') rfl, rfl⟩
    · exact ⟨.leaf (.entity .anyChar) rfl, rfl⟩
    · exact ⟨.leaf (.predefined (.shorthand .digit)) rfl, rfl⟩
  have hsame : (chain (pair a b) c [d]).operands
      = (followedBy a (list b (pair c d) [])).operands := rfl
  obtain ⟨q, r, hq, hr, hequal, hrender, hanalysis, -⟩ :=
    sequence_eq_of_operands_eq hsame (by decide) hoperands
  exact ⟨q, r, hq, hr, hequal, hrender, hanalysis⟩

end Bracketing

end PatternAlgebra
