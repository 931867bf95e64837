import PatternAlgebra.Proofs.Analysis.Lengths
import PatternAlgebra.Proofs.Construction.Oversized
import PatternAlgebra.Proofs.Expr.Shape
import PatternAlgebra.Proofs.Sequence.Bracketing
/-!
# Alternations do not depend on bracketing

A list of operands can be put into one alternation at once, or some of them first into alternations
that are then put into others, with any of the calls that make alternations.  The outcome is always
the same: the alternatives of the operands in order, with one bar between neighbours.  Its analysis
does not even depend on the order.

Unlike in a sequence, nothing is merged.  A nested alternation gives up its alternatives as they
are, so all that has to be known of it is which alternatives it offers.
-/

namespace PatternAlgebra

open Script Script.Eval

/-! ## The analysis of alternatives -/

theorem maxBounds_right_comm (a b c : Option Nat) :
    maxBounds (maxBounds a b) c = maxBounds (maxBounds a c) b := by
  ext n
  simp only [maxBounds_eq_some_iff]
  constructor
  · rintro ⟨_, k, ⟨i, j, rfl, rfl, rfl⟩, rfl, rfl⟩
    exact ⟨max i k, j, ⟨i, k, rfl, rfl, rfl⟩, rfl, by omega⟩
  · rintro ⟨_, j, ⟨i, k, rfl, rfl, rfl⟩, rfl, rfl⟩
    exact ⟨max i j, k, ⟨i, j, rfl, rfl, rfl⟩, rfl, by omega⟩

theorem Analysis.alternation_perm {alternatives alternatives' : List Analysis}
    (h : alternatives.Perm alternatives') :
    alternation alternatives = alternation alternatives' := by
  apply ext_facts
  · exact h.foldl_eq' (fun a _ b _ bound => maxBounds_right_comm bound _ _) (some 0)
  · rfl
  · exact h.any_eq

/-- Alternatives that all have a bound have one together. -/
theorem isSome_foldl_maxBounds {alternatives : List Analysis}
    (h : ∀ a ∈ alternatives, a.boundedLength.isSome) (start : Nat) :
    (alternatives.foldl (fun bound a => maxBounds bound a.boundedLength) (some start)).isSome := by
  induction alternatives generalizing start with
  | nil => rfl
  | cons a alternatives ih =>
      obtain ⟨n, hn⟩ := Option.isSome_iff_exists.mp (h a (by simp))
      rw [List.foldl_cons, hn]
      exact ih (fun b hb => h b (by simp [hb])) (max start n)

/-- Alternatives have a bound if every one of them has, and it is the greatest of theirs. -/
theorem Analysis.boundedLength_alternation_iff_greatest {alternatives : List Analysis}
    (hne : alternatives ≠ []) (n : Nat) :
    (alternation alternatives).boundedLength = some n ↔
      (∀ a ∈ alternatives, ∃ m, a.boundedLength = some m ∧ m ≤ n) ∧
        ∃ a ∈ alternatives, a.boundedLength = some n := by
  constructor
  · exact boundedLength_alternation_eq_some hne
  · rintro ⟨hall, a, ha, hn⟩
    have hbounded : ∀ b ∈ alternatives, b.boundedLength.isSome := by
      intro b hb
      obtain ⟨m, hm, -⟩ := hall b hb
      rw [hm]
      rfl
    obtain ⟨k, hk⟩ := Option.isSome_iff_exists.mp (isSome_foldl_maxBounds hbounded 0)
    have hk : (alternation alternatives).boundedLength = some k := hk
    obtain ⟨habove, b, hb, hbk⟩ := boundedLength_alternation_eq_some hne hk
    -- each of the two bounds is that of an alternative, and not below the other
    obtain ⟨i, hi, hik⟩ := habove a ha
    obtain ⟨j, hj, hjn⟩ := hall b hb
    obtain rfl := Option.some.inj (hi.symm.trans hn)
    obtain rfl := Option.some.inj (hj.symm.trans hbk)
    rw [hk, Nat.le_antisymm hjn hik]

/-! ## What operands offer -/

/-- The alternatives that a content offers; a compound is no expression and offers none. -/
def Node.Content.alternatives : Node.Content → List Expr
  | expr e => e.alternatives
  | compound _ => []

/-- The alternatives that some nodes offer, in order. -/
def Node.offered (ns : List Node) : List Expr := ns.flatMap (·.content.alternatives)

theorem Node.offered_append (ns ms : List Node) : offered (ns ++ ms) = offered ns ++ offered ms :=
  List.flatMap_append

/-- The alternation with these alternatives as they are. -/
def Alternation.ofAlternatives (alternatives : List Expr) : Alternation where
  alternatives := alternatives
  profile := .alternation (alternatives.map Expr.profile)

/-- The nodes are these items, one by one. -/
def Node.AreItems (ns : List Node) (items : List Alternative) : Prop :=
  List.Forall₂ (fun n a => n.toAlternative? = some a) ns items

theorem Node.AreItems.offered_eq {ns : List Node} {items : List Alternative}
    (h : AreItems ns items) : offered ns = items.flatMap (·.expr.alternatives) := by
  refine flatMap_eq_of_forall₂ (h.imp fun n a ha => ?_)
  rw [Node.content_of_toAlternative? ha]
  rfl

/-- Items become the alternation of what they offer. -/
theorem Node.AreItems.ofItems_eq {ns : List Node} {items : List Alternative}
    (h : AreItems ns items) : Alternation.ofItems items = .ofAlternatives (offered ns) := by
  rw [h.offered_eq]
  rfl

/-! ## Building -/

namespace Bracketing

mutual

/-- The alternation that is built, or the operand alone. -/
def alternate : Bracketing → Eval Node
  | operand n => pure n
  | pair first second => do
    let a ← alternate first
    let b ← alternate second
    (Nary.alternation .pair).build [a, b]
  | followedBy first second => do
    let a ← alternate first
    let b ← alternate second
    Binary.orElse.build a b
  | chain first second rest => do
    let a ← alternate first
    let b ← alternate second
    let cs ← alternateAll rest
    (Nary.alternation .chain).build (a :: b :: cs)
  | list first second rest => do
    let a ← alternate first
    let b ← alternate second
    let cs ← alternateAll rest
    (Nary.alternation .list).build (a :: b :: cs)

/-- The alternations of all items. -/
def alternateAll : List Bracketing → Eval (List Node)
  | [] => pure []
  | b :: bs => do
    let a ← alternate b
    let rest ← alternateAll bs
    return a :: rest

end

/-- Items of an alternation that offer together what the operands offer. -/
structure Offer (ns operands : List Node) : Prop where
  placed : ∀ n ∈ ns, n.toAlternative?.isSome
  offered_eq : Node.offered ns = Node.offered operands

namespace Offer

variable {ns ms xs ys : List Node}

theorem append (h : Offer ns xs) (h' : Offer ms ys) : Offer (ns ++ ms) (xs ++ ys) where
  placed := by
    intro n hn
    rcases List.mem_append.mp hn with hn | hn
    · exact h.placed n hn
    · exact h'.placed n hn
  offered_eq := by
    rw [Node.offered_append, Node.offered_append, h.offered_eq, h'.offered_eq]

/-- The alternation of what some operands offer may stand for them. -/
theorem alternation (operands : List Node) :
    Offer [.alternation (.ofAlternatives (Node.offered operands))] operands where
  placed := by
    intro n hn
    obtain rfl := List.mem_singleton.mp hn
    rfl
  offered_eq := List.flatMap_singleton _ _

/-- Whatever call puts two or more items into an alternation, it is that of what they offer. -/
theorem returns_alternation {arity : Arity} (h : Offer ns xs) (hseveral : 2 ≤ ns.length)
    (harity : arity = .pair → ns.length = 2) :
    ((Nary.alternation arity).build ns).Returns
      (.alternation (.ofAlternatives (Node.offered xs))) := by
  obtain ⟨items, hitems⟩ : ∃ items, Node.AreItems ns items := exists_forall₂_of_isSome h.placed
  have hlength : ns.length = items.length := hitems.length_eq
  rw [← h.offered_eq, ← hitems.ofItems_eq]
  refine returns_bind.mpr ⟨items, returns_mapM.mpr (hitems.imp fun _ _ ha => ?_),
    returns_map.mpr ⟨_, ?_, rfl⟩⟩
  · exact returns_require.mpr ha
  · rw [hlength] at hseveral harity
    exact returns_alternationOf.mpr
      ⟨hseveral, congrArg Alternation.ofItems (Arity.taken_of_length harity)⟩

theorem returns_orElse {n m : Node} (h : Offer [n, m] xs) :
    (Binary.orElse.build n m).Returns (.alternation (.ofAlternatives (Node.offered xs))) := by
  obtain ⟨a, ha⟩ := Option.isSome_iff_exists.mp (h.placed n (by simp))
  obtain ⟨b, hb⟩ := Option.isSome_iff_exists.mp (h.placed m (by simp))
  have hitems : Node.AreItems [n, m] [a, b] := .cons ha (.cons hb .nil)
  rw [← h.offered_eq, ← hitems.ofItems_eq]
  refine returns_bind.mpr ⟨a, returns_require.mpr ha, ?_⟩
  refine returns_bind.mpr ⟨b, returns_require.mpr hb, ?_⟩
  exact returns_pure.mpr rfl

end Offer

/-- What has been built: a node that stands for the operands, and if there are two or more of them,
    the alternation of what they offer. -/
structure Alternates (n : Node) (operands : List Node) : Prop where
  offer : Offer [n] operands
  alternation : 2 ≤ operands.length →
    n = .alternation (.ofAlternatives (Node.offered operands))

theorem alternates_alternation (operands : List Node) :
    Alternates (.alternation (.ofAlternatives (Node.offered operands))) operands :=
  ⟨.alternation operands, fun _ => rfl⟩

/-- A computation has a node as its value that stands for the operands. -/
def CanAlternate (c : Eval Node) (operands : List Node) : Prop :=
  ∃ n, c.Returns n ∧ Alternates n operands

/-- A computation has items as its value that offer together what the operands offer. -/
def CanAlternateAll (c : Eval (List Node)) (operands : List Node) : Prop :=
  ∃ ns, c.Returns ns ∧ Offer ns operands

/-- Two items that are built one after another, by any call that makes an alternation of them. -/
theorem canAlternate_two {join : Node → Node → Eval Node}
    (hjoin : ∀ {n m : Node} {operands : List Node}, Offer [n, m] operands →
      (join n m).Returns (.alternation (.ofAlternatives (Node.offered operands))))
    {first second : Eval Node} {xs ys : List Node} (h : CanAlternate first xs)
    (h' : CanAlternate second ys) :
    CanAlternate (do
      let a ← first
      let b ← second
      join a b) (xs ++ ys) := by
  obtain ⟨n, hn, hfirst⟩ := h
  obtain ⟨m, hm, hsecond⟩ := h'
  have hoffer := hfirst.offer.append hsecond.offer
  refine ⟨_, ?_, alternates_alternation _⟩
  exact returns_bind.mpr ⟨n, hn, returns_bind.mpr ⟨m, hm, hjoin hoffer⟩⟩

/-- A row of two or more items that are built one after another, by a chain or from a list. -/
theorem canAlternate_row (arity : Arity) (harity : arity ≠ .pair) {first second : Eval Node}
    {rest : Eval (List Node)} {xs ys zs : List Node} (h : CanAlternate first xs)
    (h' : CanAlternate second ys) (hrest : CanAlternateAll rest zs) :
    CanAlternate (do
      let a ← first
      let b ← second
      let cs ← rest
      (Nary.alternation arity).build (a :: b :: cs)) (xs ++ (ys ++ zs)) := by
  obtain ⟨n, hn, hfirst⟩ := h
  obtain ⟨m, hm, hsecond⟩ := h'
  obtain ⟨ns, hns, hoffers⟩ := hrest
  have hoffer := hfirst.offer.append (hsecond.offer.append hoffers)
  refine ⟨_, ?_, alternates_alternation _⟩
  refine returns_bind.mpr ⟨n, hn, returns_bind.mpr ⟨m, hm, returns_bind.mpr ⟨ns, hns, ?_⟩⟩⟩
  exact hoffer.returns_alternation (by simp) fun hpair => absurd hpair harity

mutual

/-- Every bracketing of items of an alternation can be built. -/
theorem alternate_spec : ∀ b : Bracketing, (∀ n ∈ b.operands, n.toAlternative?.isSome) →
    CanAlternate b.alternate b.operands
  | operand n, h => by
    simp only [operands] at h ⊢
    refine ⟨n, ?_, ⟨h, rfl⟩, fun hseveral => absurd hseveral (by simp)⟩
    rw [alternate, returns_pure]
  | pair first second, h => by
    simp only [operands] at h ⊢
    rw [alternate]
    exact canAlternate_two
      (fun hoffer => hoffer.returns_alternation (Nat.le_refl 2) fun _ => rfl)
      (alternate_spec first fun k hk => h k (List.mem_append_left _ hk))
      (alternate_spec second fun k hk => h k (List.mem_append_right _ hk))
  | followedBy first second, h => by
    simp only [operands] at h ⊢
    rw [alternate]
    exact canAlternate_two (fun hoffer => hoffer.returns_orElse)
      (alternate_spec first fun k hk => h k (List.mem_append_left _ hk))
      (alternate_spec second fun k hk => h k (List.mem_append_right _ hk))
  | chain first second rest, h => by
    simp only [operands] at h ⊢
    rw [alternate]
    exact canAlternate_row .chain (fun hpair => nomatch hpair)
      (alternate_spec first fun k hk => h k (by simp [hk]))
      (alternate_spec second fun k hk => h k (by simp [hk]))
      (alternateAll_spec rest fun k hk => h k (by simp [hk]))
  | list first second rest, h => by
    simp only [operands] at h ⊢
    rw [alternate]
    exact canAlternate_row .list (fun hpair => nomatch hpair)
      (alternate_spec first fun k hk => h k (by simp [hk]))
      (alternate_spec second fun k hk => h k (by simp [hk]))
      (alternateAll_spec rest fun k hk => h k (by simp [hk]))

theorem alternateAll_spec : ∀ bs : List Bracketing,
    (∀ n ∈ operandsAll bs, n.toAlternative?.isSome) →
      CanAlternateAll (alternateAll bs) (operandsAll bs)
  | [], _ => by
    refine ⟨[], ?_, ?_⟩
    · rw [alternateAll, returns_pure]
    · rw [operandsAll]
      exact ⟨(fun n hn => nomatch hn), rfl⟩
  | b :: bs, h => by
    simp only [operandsAll] at h ⊢
    obtain ⟨n, hn, hfirst⟩ := alternate_spec b fun k hk => h k (List.mem_append_left _ hk)
    obtain ⟨ns, hns, hrest⟩ := alternateAll_spec bs fun k hk => h k (List.mem_append_right _ hk)
    refine ⟨n :: ns, ?_, hfirst.offer.append hrest⟩
    rw [alternateAll]
    exact returns_bind.mpr ⟨n, hn, returns_bind.mpr ⟨ns, hns, returns_pure.mpr rfl⟩⟩

end

end Bracketing

/-! ## The alternation of some operands -/

/-- A well-built operand of an alternation. -/
def Node.IsAlternative (n : Node) : Prop := n.WellBuilt ∧ n.toAlternative?.isSome

/-- Operands of an alternation are some items of it, and these are well built. -/
theorem Node.exists_items {operands : List Node} (h : ∀ n ∈ operands, n.IsAlternative) :
    ∃ items, AreItems operands items ∧ ∀ a ∈ items, a.expr.WellBuilt := by
  obtain ⟨items, hitems⟩ : ∃ items, AreItems operands items :=
    exists_forall₂_of_isSome fun n hn => (h n hn).2
  refine ⟨items, hitems, ?_⟩
  exact returns_mapM_convert (fun _ _ => returns_asAlternative) (fun n hn => (h n hn).1)
    (returns_mapM.mpr (hitems.imp fun _ _ ha => returns_require.mpr ha))

theorem Node.length_le_length_offered {operands : List Node}
    (h : ∀ n ∈ operands, n.IsAlternative) : operands.length ≤ (offered operands).length := by
  obtain ⟨items, hitems, hwellBuilt⟩ := exists_items h
  rw [hitems.offered_eq, List.Forall₂.length_eq hitems]
  exact length_le_length_flatMap_alternatives hwellBuilt

/-- What is offered is well built and no alternation. -/
theorem Node.wellBuilt_of_mem_offered {operands : List Node}
    (h : ∀ n ∈ operands, n.IsAlternative) {leaf : Expr} (hleaf : leaf ∈ offered operands) :
    leaf.WellBuilt ∧ leaf.isAlternation = false := by
  obtain ⟨n, hn, hmem⟩ := List.mem_flatMap.mp hleaf
  obtain ⟨hwellBuilt, hplaced⟩ := h n hn
  obtain ⟨a, ha⟩ := Option.isSome_iff_exists.mp hplaced
  have hcontent := Node.content_of_toAlternative? ha
  rw [hcontent] at hmem
  obtain ⟨-, halternatives⟩ := (hwellBuilt.of_content_eq hcontent).alternatives a.allowed
  obtain ⟨-, hflat, hpart⟩ := halternatives leaf hmem
  exact ⟨hpart, hflat⟩

namespace Alternation

variable {operands : List Node}

theorem wellBuilt_ofAlternatives (h : ∀ n ∈ operands, n.IsAlternative)
    (hseveral : 2 ≤ operands.length) :
    (ofAlternatives (Node.offered operands)).toExpr.WellBuilt := by
  obtain ⟨items, hitems, hwellBuilt⟩ := Node.exists_items h
  rw [← hitems.ofItems_eq]
  exact wellBuilt_ofItems (List.Forall₂.length_eq hitems ▸ hseveral) hwellBuilt

/-- One bar between neighbours and none anywhere else, also where an alternative is empty. -/
theorem render_ofAlternatives (alternatives : List Expr) :
    (ofAlternatives alternatives).toExpr.render
      = "|".intercalate (alternatives.map Expr.render) := by
  apply String.toList_inj.mp
  rw [Expr.toList_render, String.toList_intercalate, List.map_map]
  show (Profile.alternation (alternatives.map Expr.profile)).text.contents = _
  rw [Profile.contents_alternation_eq_intercalate, List.map_map]
  refine congrArg ['|'].intercalate (List.map_congr_left fun leaf hleaf => ?_)
  exact (Expr.toList_render leaf).symm

theorem analysis_ofAlternatives (alternatives : List Expr) :
    (ofAlternatives alternatives).toExpr.analysis
      = Analysis.alternation (alternatives.map Expr.analysis) := by
  show Analysis.alternation ((alternatives.map Expr.profile).map Profile.analysis) = _
  rw [List.map_map]
  rfl

end Alternation

/-! ## Any two bracketings -/

/-- **Any two bracketings of the same operands agree.**  At least two operands build equal
    alternations with the same text and the same analysis, and the analysis is the same also for
    operands in another order.  The text is that of the alternatives of all operands, of which none
    is an alternation, with a bar between neighbours, and it is written out exactly if there is room
    for it.  There is a bound if every alternative has one, and it is the greatest of them. -/
theorem alternation_eq_of_operands_perm {x y : Bracketing} (hperm : x.operands.Perm y.operands)
    (hseveral : 2 ≤ x.operands.length)
    (hoperands : ∀ n ∈ x.operands, Constructible n ∧ n.toAlternative?.isSome) :
    ∃ a b : Alternation,
      x.alternate.Returns (.alternation a) ∧ y.alternate.Returns (.alternation b) ∧
      (x.operands = y.operands → (a == b) = true ∧ a.toExpr.render = b.toExpr.render ∧
        a.toExpr.checkedRender = b.toExpr.checkedRender) ∧
      a.toExpr.analysis = b.toExpr.analysis ∧
      (∀ leaf ∈ Node.offered x.operands, leaf.isAlternation = false) ∧
      a.toExpr.render = "|".intercalate ((Node.offered x.operands).map Expr.render) ∧
      (a.toExpr.checkedRender = .ok a.toExpr.render ↔ Text.Fits a.toExpr.render) ∧
      (Text.Fits a.toExpr.render →
        ∀ leaf ∈ Node.offered x.operands, leaf.checkedRender = .ok leaf.render) ∧
      (∀ n, a.toExpr.analysis.boundedLength = some n ↔
        (∀ leaf ∈ Node.offered x.operands, ∃ m, leaf.analysis.boundedLength = some m ∧ m ≤ n) ∧
          ∃ leaf ∈ Node.offered x.operands, leaf.analysis.boundedLength = some n) ∧
      a.toExpr.analysis.repetitionInvalidatesBounds = true ∧
      a.toExpr.analysis.possiblyZeroLength
        = (Node.offered x.operands).any (·.analysis.possiblyZeroLength) := by
  have halternative : ∀ n ∈ x.operands, n.IsAlternative :=
    fun n hn => ⟨(hoperands n hn).1.wellBuilt, (hoperands n hn).2⟩
  obtain ⟨n, hn, hx⟩ := x.alternate_spec fun n hn => (hoperands n hn).2
  obtain ⟨m, hm, hy⟩ := y.alternate_spec fun n hn => (hoperands n (hperm.mem_iff.mpr hn)).2
  obtain rfl := hx.alternation hseveral
  obtain rfl := hy.alternation (hperm.length_eq ▸ hseveral)
  have hne : (Node.offered x.operands).map Expr.analysis ≠ [] := by
    apply List.ne_nil_of_length_pos
    rw [List.length_map]
    exact Nat.lt_of_lt_of_le (Nat.lt_of_lt_of_le Nat.two_pos hseveral)
      (Node.length_le_length_offered halternative)
  have hsame : (Node.offered x.operands).Perm (Node.offered y.operands) := hperm.flatMap_right _
  have hrender := Alternation.render_ofAlternatives (Node.offered x.operands)
  refine ⟨_, _, hn, hm, ?_, ?_, fun leaf hleaf => ?_, hrender,
    (Alternation.wellBuilt_ofAlternatives halternative hseveral).checkedRender_eq_ok_iff, ?_,
    fun n => ?_, rfl, ?_⟩
  · intro heq
    rw [heq]
    exact ⟨Expr.beq_iff_bare_eq.mpr rfl, rfl, rfl⟩
  · rw [Alternation.analysis_ofAlternatives, Alternation.analysis_ofAlternatives]
    exact Analysis.alternation_perm (hsame.map Expr.analysis)
  · exact (Node.wellBuilt_of_mem_offered halternative hleaf).2
  · intro hfits leaf hleaf
    rw [hrender] at hfits
    exact (Node.wellBuilt_of_mem_offered halternative hleaf).1.checkedRender_eq_ok_iff.mpr
      (hfits.of_mem_intercalate (List.mem_map_of_mem hleaf))
  · rw [Alternation.analysis_ofAlternatives, Analysis.boundedLength_alternation_iff_greatest hne]
    simp only [List.mem_map, forall_exists_index, and_imp, forall_apply_eq_imp_iff₂,
      exists_exists_and_eq_and]
  · rw [Alternation.analysis_ofAlternatives]
    show ((Node.offered x.operands).map Expr.analysis).any _ = _
    rw [List.any_map]
    rfl

/-- Empty alternatives at both ends, and one without a bound between them. -/
theorem alternation_eq_around_empty_alternatives :
    let empty : Bracketing := .operand (.literal "")
    let ab : Bracketing := .operand (.literal "ab")
    let digits : Quantified := .build (.ofCharClass .digit) .atLeastOnce .greedy
    let many : Bracketing := .operand (.quantified digits)
    let x : Bracketing := .pair (.followedBy empty ab) (.list many empty [])
    let y : Bracketing := .chain empty (.pair ab many) [empty]
    ∃ a b : Alternation,
      x.alternate.Returns (.alternation a) ∧ y.alternate.Returns (.alternation b) ∧
      (a == b) = true ∧ a.toExpr.checkedRender = .ok "|ab|\\d+|" ∧
      a.toExpr.analysis.boundedLength = none ∧ b.toExpr.analysis.possiblyZeroLength = true := by
  intro empty ab digits many x y
  have hdigits : Constructible (.quantified digits) :=
    .unary (.quantify .atLeastOnce .greedy) (.leaf (.predefined (.shorthand .digit)) rfl) rfl
  have hoperands : ∀ n ∈ x.operands, Constructible n ∧ n.toAlternative?.isSome := by
    intro n hn
    have hn : n ∈ [Node.literal "", .literal "ab", .quantified digits, .literal ""] := hn
    simp only [List.mem_cons, List.not_mem_nil, or_false] at hn
    rcases hn with rfl | rfl | rfl | rfl
    · exact ⟨.leaf (.literal "") rfl, rfl⟩
    · exact ⟨.leaf (.literal "ab") rfl, rfl⟩
    · exact ⟨hdigits, rfl⟩
    · exact ⟨.leaf (.literal "") rfl, rfl⟩
  have hoffered : Node.offered x.operands
      = [.literal "", .literal "ab", digits.toExpr, .literal ""] := rfl
  have hperm : x.operands.Perm y.operands := .refl _
  obtain ⟨a, b, ha, hb, hsame, hanalysis, -, hrender, hwritten, -, hbound, -, hzero⟩ :=
    alternation_eq_of_operands_perm hperm (by decide) hoperands
  have htext : a.toExpr.render = "|ab|\\d+|" := by
    rw [hrender]
    decide +kernel
  refine ⟨a, b, ha, hb, (hsame rfl).1, ?_, ?_, ?_⟩
  · rw [htext] at hwritten
    exact hwritten.mpr (by decide)
  · rw [Option.eq_none_iff_forall_ne_some]
    intro n hn
    -- the repeated digits would have to have a bound as well
    obtain ⟨m, hm, -⟩ := ((hbound n).mp hn).1 digits.toExpr (by simp [hoffered])
    exact nomatch hm
  · rw [← hanalysis, hzero]
    rfl

/-- A text that is cut off in the middle of the first alternative: no word holds its length. -/
theorem alternation_cut_off_past_the_last_word :
    let x : Bracketing := .pair (.operand (.group (.crowd 15))) (.operand (.literal "abcde"))
    (∀ n ∈ x.operands, Constructible n ∧ n.toAlternative?.isSome) ∧
    ∃ a : Alternation, x.alternate.Returns (.alternation a) ∧
      a.toExpr.text.length = 4 ∧ a.toExpr.checkedRender = .ok "((((" ∧
      ("|".intercalate ((Node.offered x.operands).map Expr.render)).length = wordLimit + 4 := by
  obtain ⟨g, hcrowd, hg⟩ := Group.exists_eq_crowd
  rw [hg]
  intro x
  have hlength : ("|".intercalate ((Node.offered x.operands).map Expr.render)).length
      = wordLimit + 4 := by
    have hgroup := hcrowd.length_render
    have hliteral : (Expr.literal "abcde").render.length = 5 := by
      rw [← String.length_toList, Expr.toList_render]
      rfl
    have hbar : ("|" : String).length = 1 := rfl
    show ("|".intercalate [g.toExpr.render, (Expr.literal "abcde").render]).length = _
    rw [String.intercalate_cons_cons, String.intercalate_singleton, String.length_append,
      String.length_append, hliteral, hbar]
    omega
  obtain ⟨hshort, hrender⟩ := hcrowd.checkedRender_alternation
  refine ⟨?_, _, rfl, hshort, hrender, hlength⟩
  intro n hn
  rcases List.mem_cons.mp hn with rfl | hn
  · exact ⟨hcrowd.constructible, rfl⟩
  · obtain rfl := List.mem_singleton.mp hn
    exact ⟨.leaf (.literal "abcde") rfl, rfl⟩

end PatternAlgebra
