import PatternAlgebra.Proofs.Alternation.Splicing
import PatternAlgebra.Proofs.Analysis.Order
import PatternAlgebra.Proofs.Analysis.Repetition
/-!
# Tightening a part never breaks the whole

A term that puts expressions together can be evaluated with other expressions in their places.  If
these convert to the same things and their analyses are at most those of before, then whatever could
be built can still be built, and the analysis of every node on the way is at most that of before.
In particular no look-behind that was admitted is refused.

The two evaluations may build trees of different shapes, since sequences merge their raw neighbours
and alternations open nested ones.  But the analysis of a sequence is that of its items in a row,
and the analysis of an alternation is that of its items as alternatives, whatever becomes of the
items; so only analyses are compared, never trees.
-/

namespace PatternAlgebra

open Script Script.Eval

/-! ## Nodes that take the place of others -/

/-- Two nodes convert to the same things. -/
structure Node.SameCapabilities (n m : Node) : Prop where
  toExpr : n.toExpr?.isSome = m.toExpr?.isSome
  toQuantifiable : n.toQuantifiable?.isSome = m.toQuantifiable?.isSome
  toSequenceable : n.toSequenceable?.isSome = m.toSequenceable?.isSome
  toAlternative : n.toAlternative?.isSome = m.toAlternative?.isSome

/-- The first expression is at most what the second is. -/
structure Expr.Tightens (d e : Expr) : Prop where
  wellBuilt_left : d.WellBuilt
  wellBuilt_right : e.WellBuilt
  analysis : d.analysis.AtMost e.analysis

/-- The first node can take the place of the second and is at most what the second is. -/
structure Node.Tightens (n m : Node) : Prop where
  wellBuilt_left : n.WellBuilt
  wellBuilt_right : m.WellBuilt
  capabilities : n.SameCapabilities m
  analysis : n.profile.analysis.AtMost m.profile.analysis

variable {d e : Expr} {n m : Node}

theorem Node.Tightens.refl (h : n.WellBuilt) : n.Tightens n where
  wellBuilt_left := h
  wellBuilt_right := h
  capabilities := ⟨rfl, rfl, rfl, rfl⟩
  analysis := .refl _

/-- What a node converts to depends on its type alone. -/
theorem Node.sameCapabilities_of_type_eq (h : n.type = m.type) : n.SameCapabilities m := by
  cases n <;> cases m <;> cases h <;> exact ⟨rfl, rfl, rfl, rfl⟩

theorem Expr.Tightens.of_content (h : d.Tightens e) (hn : n.content = .expr d)
    (hm : m.content = .expr e) (htype : n.type = m.type) : n.Tightens m where
  wellBuilt_left := by
    rw [Node.WellBuilt, hn]
    exact h.wellBuilt_left
  wellBuilt_right := by
    rw [Node.WellBuilt, hm]
    exact h.wellBuilt_right
  capabilities := Node.sameCapabilities_of_type_eq htype
  analysis := by
    rw [Node.profile_of_content hn, Node.profile_of_content hm]
    exact h.analysis

/-- Items that each tighten the one they stand for. -/
theorem Expr.Tightens.forall {α : Type} {expr : α → Expr} {xs ys : List α}
    (h : List.Forall₂ (fun x y => (expr x).Tightens (expr y)) xs ys) :
    (∀ x ∈ xs, (expr x).WellBuilt) ∧ (∀ y ∈ ys, (expr y).WellBuilt) ∧
      List.Forall₂ Analysis.AtMost (xs.map fun x => (expr x).analysis)
        (ys.map fun y => (expr y).analysis) := by
  induction h with
  | nil => exact ⟨List.forall_mem_nil _, List.forall_mem_nil _, .nil⟩
  | cons hfirst _ ih =>
      obtain ⟨hleft, hright, hall⟩ := ih
      exact ⟨List.forall_mem_cons.mpr ⟨hfirst.wellBuilt_left, hleft⟩,
        List.forall_mem_cons.mpr ⟨hfirst.wellBuilt_right, hright⟩, .cons hfirst.analysis hall⟩

/-! ## Conversions -/

namespace Script

theorem follows_convert {α : Type} {convert : Node → Option α} (expr : α → Expr)
    (hcontent : ∀ k a, convert k = some a → k.content = .expr (expr a)) (h : n.Tightens m)
    (hsome : (convert n).isSome = (convert m).isSome) (failure failure' : Failure) :
    Follows (fun a b => (expr a).Tightens (expr b)) (require (convert n) failure)
      (require (convert m) failure') := by
  intro b hb
  have hb := returns_require.mp hb
  obtain ⟨a, ha⟩ : ∃ a, convert n = some a := by
    rw [← Option.isSome_iff_exists, hsome, hb]
    rfl
  have hn := hcontent n a ha
  have hm := hcontent m b hb
  refine ⟨a, returns_require.mpr ha, h.wellBuilt_left.of_content_eq hn,
    h.wellBuilt_right.of_content_eq hm, ?_⟩
  have hanalysis := h.analysis
  rw [Node.profile_of_content hn, Node.profile_of_content hm] at hanalysis
  exact hanalysis

theorem follows_asExpr (h : n.Tightens m) : Follows Expr.Tightens (asExpr n) (asExpr m) :=
  follows_convert id (fun _ _ => Node.content_of_toExpr?) h h.capabilities.toExpr _ _

theorem follows_asQuantifiable (h : n.Tightens m) :
    Follows (fun a b => a.expr.Tightens b.expr) (asQuantifiable n) (asQuantifiable m) :=
  follows_convert Quantifiable.expr (fun _ _ => Node.content_of_toQuantifiable?) h
    h.capabilities.toQuantifiable _ _

theorem follows_asSequenceable (h : n.Tightens m) :
    Follows (fun a b => a.expr.Tightens b.expr) (asSequenceable n) (asSequenceable m) :=
  follows_convert Sequenceable.expr (fun _ _ => Node.content_of_toSequenceable?) h
    h.capabilities.toSequenceable _ _

theorem follows_asAlternative (h : n.Tightens m) :
    Follows (fun a b => a.expr.Tightens b.expr) (asAlternative n) (asAlternative m) :=
  follows_convert Alternative.expr (fun _ _ => Node.content_of_toAlternative?) h
    h.capabilities.toAlternative _ _

/-! ## Constructions

Each construction asks of its operands no more than their analyses, apart from what it asks of a
quantifier and of the number of items, which are the same on both sides. -/

/-- A group around the tighter expression is made whenever the other is: a bound that the other one
    has, the tighter one has too. -/
theorem follows_ofKind (h : d.Tightens e) (kind : GroupKind) :
    Follows (fun f g => f.toExpr.Tightens g.toExpr) (attempting (Group.ofKind kind d))
      (attempting (Group.ofKind kind e)) := by
  intro g hg
  obtain ⟨hbound, rfl⟩ := Group.ofKind_eq_ok (returns_attempting.mp hg)
  have hbound' : kind.isLookBehind = true → d.analysis.boundedLength ≠ none :=
    fun hkind => h.analysis.boundedLength.ne_none (hbound hkind)
  refine ⟨Group.build kind d, returns_attempting.mpr ?_, .group hbound' h.wellBuilt_left,
    .group hbound h.wellBuilt_right, h.analysis⟩
  exact ⟨_, Group.ofKind_of_bounded hbound', rfl⟩

theorem tightens_build (h : d.Tightens e) {kind : GroupKind} (hkind : kind.isLookBehind = false) :
    (Group.build kind d).toExpr.Tightens (Group.build kind e).toExpr where
  wellBuilt_left := Group.wellBuilt_build hkind h.wellBuilt_left
  wellBuilt_right := Group.wellBuilt_build hkind h.wellBuilt_right
  analysis := h.analysis

theorem follows_apply {base base' : Quantifiable} (h : base.expr.Tightens base'.expr)
    (quantifier : Quantifier) (mode : Mode) :
    Follows (fun p q => p.toExpr.Tightens q.toExpr)
      (checked (Quantified.apply base quantifier mode))
      (checked (Quantified.apply base' quantifier mode)) := by
  intro q hq
  obtain ⟨hcheck, rfl⟩ := Quantified.apply_eq_ok (returns_checked.mp hq)
  have hmade := Quantified.apply_of_withinLimits base quantifier mode
    (Quantifier.check_eq_ok_iff.mp hcheck)
  exact ⟨.build base quantifier mode, returns_checked.mpr hmade,
    .quantified mode hcheck h.wellBuilt_left, .quantified mode hcheck h.wellBuilt_right,
    h.analysis.quantified quantifier⟩

theorem tightens_ofItems {items items' : List Sequenceable}
    (h : List.Forall₂ (fun a b => a.expr.Tightens b.expr) items items') (hne : items ≠ [])
    (hne' : items' ≠ []) :
    (Sequence.ofItems items).value.toExpr.Tightens (Sequence.ofItems items').value.toExpr := by
  obtain ⟨hleft, hright, hanalysis⟩ := Expr.Tightens.forall h
  refine ⟨Sequence.wellBuilt_ofItems hne hleft, Sequence.wellBuilt_ofItems hne' hright, ?_⟩
  rw [Sequence.analysis_ofItems hleft hne, Sequence.analysis_ofItems hright hne']
  exact .concatenation hanalysis

theorem tightens_ofItems_alternation {items items' : List Alternative}
    (h : List.Forall₂ (fun a b => a.expr.Tightens b.expr) items items')
    (hseveral : 2 ≤ items.length) (hseveral' : 2 ≤ items'.length) :
    (Alternation.ofItems items).toExpr.Tightens (Alternation.ofItems items').toExpr := by
  obtain ⟨hleft, hright, hanalysis⟩ := Expr.Tightens.forall h
  refine ⟨Alternation.wellBuilt_ofItems hseveral hleft,
    Alternation.wellBuilt_ofItems hseveral' hright, ?_⟩
  rw [Alternation.analysis_ofItems hleft, Alternation.analysis_ofItems hright]
  exact .alternation hanalysis

theorem Arity.forall₂_taken {α β : Type} {R : α → β → Prop} {xs : List α} {ys : List β}
    (h : List.Forall₂ R xs ys) (arity : Arity) :
    List.Forall₂ R (arity.taken xs) (arity.taken ys) := by
  cases arity with
  | pair => exact List.forall₂_take 2 h
  | chain => exact h
  | list => exact h

theorem follows_sequenceOf {items items' : List Sequenceable}
    (h : List.Forall₂ (fun a b => a.expr.Tightens b.expr) items items') (arity : Arity) :
    Follows (fun s s' => s.toExpr.Tightens s'.toExpr) (sequenceOf arity items)
      (sequenceOf arity items') := by
  intro s hs
  obtain ⟨hseveral', rfl⟩ := returns_sequenceOf.mp hs
  have hseveral : 2 ≤ items.length := h.length_eq ▸ hseveral'
  exact ⟨_, returns_sequenceOf.mpr ⟨hseveral, rfl⟩,
    tightens_ofItems (arity.forall₂_taken h)
      (ne_nil_of_several (arity.two_le_length_taken hseveral))
      (ne_nil_of_several (arity.two_le_length_taken hseveral'))⟩

theorem follows_alternationOf {items items' : List Alternative}
    (h : List.Forall₂ (fun a b => a.expr.Tightens b.expr) items items') (arity : Arity) :
    Follows (fun a a' => a.toExpr.Tightens a'.toExpr) (alternationOf arity items)
      (alternationOf arity items') := by
  intro a ha
  obtain ⟨hseveral', rfl⟩ := returns_alternationOf.mp ha
  have hseveral : 2 ≤ items.length := h.length_eq ▸ hseveral'
  exact ⟨_, returns_alternationOf.mpr ⟨hseveral, rfl⟩,
    tightens_ofItems_alternation (arity.forall₂_taken h) (arity.two_le_length_taken hseveral)
      (arity.two_le_length_taken hseveral')⟩

/-! ## Terms that put expressions together -/

/-- Whether the construction repeats or encloses an expression, or passes it on to a place. -/
def Unary.composes : Unary → Bool
  | toExpr => true
  | toQuantifiable => true
  | toSequenceable => true
  | toAlternative => true
  | quantify _ _ => true
  | wrap _ => true
  | enclose _ => true
  | enableFlag _ => true
  | disableFlag _ => true
  | _ => false

/-- Whether the construction makes a sequence or an alternation. -/
def Binary.composes : Binary → Bool
  | followedBy => true
  | orElse => true
  | _ => false

/-- Whether the construction makes sequences or alternations. -/
def Nary.composes : Nary → Bool
  | sequence _ => true
  | alternation _ => true
  | combine op _ _ => op.composes
  | compound => false

/-- A nesting of sequences, alternations, repetitions and groups around values and leaves. -/
inductive Term.IsComposition : Term → Prop where
  | value (step : Nat) : IsComposition (value step)
  | leaf (l : Leaf) : IsComposition (leaf l)
  | unary {op : Unary} {a : Term} (composes : op.composes = true) (operand : IsComposition a) :
      IsComposition (unary op a)
  | binary {op : Binary} {a b : Term} (composes : op.composes = true) (first : IsComposition a)
      (second : IsComposition b) : IsComposition (binary op a b)
  | nary {op : Nary} {parts : List Term} (composes : op.composes = true)
      (operands : ∀ p ∈ parts, IsComposition p) : IsComposition (nary op parts)

theorem follows_enclose (h : n.Tightens m) (kinds : List GroupKind) :
    Follows Node.Tightens (enclose n kinds) (enclose m kinds) := by
  induction kinds generalizing n m with
  | nil => exact .pure h
  | cons kind kinds ih =>
      refine (follows_asExpr h).bind fun d e hde => (follows_ofKind hde kind).bind fun f g hfg => ?_
      exact ih (hfg.of_content rfl rfl rfl)

theorem follows_unary {op : Unary} (hop : op.composes = true) (h : n.Tightens m) :
    Follows Node.Tightens (op.build n) (op.build m) := by
  cases op with
  | toExpr =>
      exact (follows_asExpr h).map fun d e hde => hde.of_content rfl rfl rfl
  | toQuantifiable =>
      exact (follows_asQuantifiable h).map fun a b hab => hab.of_content rfl rfl rfl
  | toSequenceable =>
      exact (follows_asSequenceable h).map fun a b hab => hab.of_content rfl rfl rfl
  | toAlternative =>
      exact (follows_asAlternative h).map fun a b hab => hab.of_content rfl rfl rfl
  | quantify quantifier mode =>
      refine (follows_asQuantifiable h).bind fun a b hab => ?_
      exact (follows_apply hab quantifier mode).map fun p q hpq => hpq.of_content rfl rfl rfl
  | wrap kind =>
      refine (follows_asExpr h).bind fun d e hde => ?_
      exact (follows_ofKind hde kind.normalized).map fun f g hfg => hfg.of_content rfl rfl rfl
  | enclose kinds => exact follows_enclose h kinds
  | enableFlag flag =>
      refine (follows_asExpr h).bind fun d e hde => .pure ?_
      exact (tightens_build hde rfl).of_content rfl rfl rfl
  | disableFlag flag =>
      refine (follows_asExpr h).bind fun d e hde => .pure ?_
      exact (tightens_build hde rfl).of_content rfl rfl rfl
  | _ => exact nomatch hop

theorem follows_binary {op : Binary} (hop : op.composes = true) {k l : Node} (h : n.Tightens m)
    (h' : k.Tightens l) : Follows Node.Tightens (op.build n k) (op.build m l) := by
  cases op with
  | followedBy =>
      refine (follows_asSequenceable h).bind fun a b hab =>
        (follows_asSequenceable h').bind fun c d hcd => ?_
      exact (follows_sequenceOf (.cons hab (.cons hcd .nil)) .pair).map fun s s' hs =>
        hs.of_content rfl rfl rfl
  | orElse =>
      refine (follows_asAlternative h).bind fun a b hab =>
        (follows_asAlternative h').bind fun c d hcd => ?_
      exact (follows_alternationOf (.cons hab (.cons hcd .nil)) .pair).map fun s s' hs =>
        hs.of_content rfl rfl rfl
  | _ => exact nomatch hop

theorem follows_combineLeft {op : Binary} (hop : op.composes = true) {ns ms : List Node}
    (hall : List.Forall₂ Node.Tightens ns ms) {acc acc' : Node} (h : acc.Tightens acc') :
    Follows Node.Tightens (combineLeft op acc ns) (combineLeft op acc' ms) := by
  induction hall generalizing acc acc' with
  | nil => exact .pure h
  | cons hfirst _ ih => exact (follows_binary hop h hfirst).bind fun _ _ hnext => ih hnext

theorem follows_combineRight {op : Binary} (hop : op.composes = true) {ns ms : List Node}
    (hall : List.Forall₂ Node.Tightens ns ms) {first first' : Node} (h : first.Tightens first') :
    Follows Node.Tightens (combineRight op first ns) (combineRight op first' ms) := by
  induction hall generalizing first first' with
  | nil => exact .pure h
  | cons hnext _ ih => exact (ih hnext).bind fun _ _ hrest => follows_binary hop h hrest

theorem follows_combine {op : Binary} (hop : op.composes = true) {ns ms : List Node}
    (hall : List.Forall₂ Node.Tightens ns ms) (side : Side) :
    Follows Node.Tightens (combine op side ns) (combine op side ms) := by
  cases hall with
  | nil => exact fun k hk => (returns_throw.mp hk).elim
  | cons hfirst hrest =>
      cases side with
      | left => exact follows_combineLeft hop hrest hfirst
      | right => exact follows_combineRight hop hrest hfirst

theorem follows_nary {op : Nary} (hop : op.composes = true) {ns ms : List Node}
    (hall : List.Forall₂ Node.Tightens ns ms) :
    Follows Node.Tightens (op.build ns) (op.build ms) := by
  cases op with
  | compound => exact nomatch hop
  | sequence arity =>
      have hconvert := Follows.mapM hall fun _ _ => follows_asSequenceable
      refine hconvert.bind fun items items' hitems => ?_
      exact (follows_sequenceOf hitems arity).map fun s s' hs => hs.of_content rfl rfl rfl
  | alternation arity =>
      have hconvert := Follows.mapM hall fun _ _ => follows_asAlternative
      refine hconvert.bind fun items items' hitems => ?_
      exact (follows_alternationOf hitems arity).map fun a a' ha => ha.of_content rfl rfl rfl
  | combine op side times =>
      have hcopies : List.Forall₂ (List.Forall₂ Node.Tightens) (List.replicate times ns)
          (List.replicate times ms) := by
        clear hop
        induction times with
        | zero => exact .nil
        | succ times ih => exact .cons hall ih
      exact follows_combine hop (List.rel_flatten hcopies) side

/-! ## The terms in a term -/

namespace Term

/-- The operands of a term, which are terms. -/
def operands : Term → List Term
  | value _ => []
  | leaf _ => []
  | unary _ a => [a]
  | binary _ a b => [a, b]
  | nary _ parts => parts

/-- A term stands in another if it is the other or stands in an operand of it. -/
inductive OccursIn (s : Term) : Term → Prop where
  | self : OccursIn s s
  | operand {t part : Term} (hpart : part ∈ t.operands) (h : OccursIn s part) : OccursIn s t

variable {values : Values} {s t : Term}

theorem IsComposition.of_mem_operands (h : t.IsComposition) {part : Term}
    (hpart : part ∈ t.operands) : part.IsComposition := by
  cases h with
  | value step => exact nomatch hpart
  | leaf l => exact nomatch hpart
  | unary _ operand =>
      obtain rfl := List.mem_singleton.mp hpart
      exact operand
  | binary _ first second =>
      rcases List.mem_cons.mp hpart with rfl | hpart
      · exact first
      · obtain rfl := List.mem_singleton.mp hpart
        exact second
  | nary _ operands => exact operands part hpart

theorem IsComposition.of_occursIn (hs : s.OccursIn t) (h : t.IsComposition) : s.IsComposition := by
  induction hs with
  | self => exact h
  | operand hpart _ ih => exact ih (h.of_mem_operands hpart)

theorem returns_of_mem_evalAll {ts : List Term} {ns : List Node}
    (h : (evalAll values ts).Returns ns) {t : Term} (ht : t ∈ ts) :
    ∃ n, (t.eval values).Returns n := by
  induction ts generalizing ns with
  | nil => exact nomatch ht
  | cons u ts ih =>
      rw [evalAll] at h
      obtain ⟨x, hx, h⟩ := returns_bind.mp h
      obtain ⟨xs, hxs, _⟩ := returns_bind.mp h
      rcases List.mem_cons.mp ht with rfl | ht
      · exact ⟨x, hx⟩
      · exact ih hxs ht

/-- A term has a value only if its operands have. -/
theorem returns_of_mem_operands {n : Node} (h : (t.eval values).Returns n) {part : Term}
    (hpart : part ∈ t.operands) : ∃ k, (part.eval values).Returns k := by
  cases t with
  | value step => exact nomatch hpart
  | leaf l => exact nomatch hpart
  | unary op a =>
      rw [eval] at h
      obtain ⟨x, hx, _⟩ := returns_bind.mp h
      obtain rfl := List.mem_singleton.mp hpart
      exact ⟨x, hx⟩
  | binary op a b =>
      rw [eval] at h
      obtain ⟨x, hx, h⟩ := returns_bind.mp h
      obtain ⟨y, hy, _⟩ := returns_bind.mp h
      rcases List.mem_cons.mp hpart with rfl | hpart
      · exact ⟨x, hx⟩
      · obtain rfl := List.mem_singleton.mp hpart
        exact ⟨y, hy⟩
  | nary op parts =>
      rw [eval] at h
      obtain ⟨xs, hxs, _⟩ := returns_bind.mp h
      exact returns_of_mem_evalAll hxs hpart

theorem OccursIn.returns (hs : s.OccursIn t) {n : Node} (h : (t.eval values).Returns n) :
    ∃ k, (s.eval values).Returns k := by
  induction hs generalizing n with
  | self => exact ⟨n, h⟩
  | operand hpart _ ih =>
      obtain ⟨k, hk⟩ := returns_of_mem_operands h hpart
      exact ih hk

end Term

/-! ## Two evaluations of a term -/

/-- Wherever a step has a value in the second list, it has one in the first that can take its place
    and is at most what it is. -/
def Values.Tighten (values values' : Values) : Prop :=
  ∀ (step : Nat) (m : Node), values'[step]?.join = some m → ∃ n, values[step]?.join = some n ∧
    Constructible n ∧ Constructible m ∧ n.SameCapabilities m ∧
      n.profile.analysis.AtMost m.profile.analysis

variable {values values' : Values}

theorem follows_evalAll {ts : List Term}
    (h : ∀ t ∈ ts, Follows Node.Tightens (t.eval values) (t.eval values')) :
    Follows (List.Forall₂ Node.Tightens) (Term.evalAll values ts) (Term.evalAll values' ts) := by
  induction ts with
  | nil =>
      rw [Term.evalAll, Term.evalAll]
      exact .pure .nil
  | cons t ts ih =>
      have hrest := ih fun u hu => h u (by simp [hu])
      rw [Term.evalAll, Term.evalAll]
      refine (h t (by simp)).bind fun _ _ hfirst => hrest.bind fun _ _ hall => ?_
      exact .pure (.cons hfirst hall)

theorem follows_eval (hvalues : values.Tighten values') {t : Term} (ht : t.IsComposition) :
    Follows Node.Tightens (t.eval values) (t.eval values') := by
  induction ht with
  | value step =>
      intro m hm
      rw [Term.eval] at hm ⊢
      obtain ⟨n, hn, hconstructible, hconstructible', hcapabilities, hanalysis⟩ :=
        hvalues step m (returns_require.mp hm)
      exact ⟨n, returns_require.mpr hn, hconstructible.wellBuilt, hconstructible'.wellBuilt,
        hcapabilities, hanalysis⟩
  | leaf l =>
      intro m hm
      rw [Term.eval] at hm ⊢
      exact ⟨m, hm, .refl (wellBuilt_of_leaf hm)⟩
  | unary hop _ ih =>
      rw [Term.eval, Term.eval]
      exact ih.bind fun _ _ h => follows_unary hop h
  | binary hop _ _ ih ih' =>
      rw [Term.eval, Term.eval]
      exact ih.bind fun _ _ h => ih'.bind fun _ _ h' => follows_binary hop h h'
  | nary hop _ ih =>
      rw [Term.eval, Term.eval]
      exact (follows_evalAll ih).bind fun _ _ hall => follows_nary hop hall

end Script

/-- **Tightening a part never breaks the whole.**  Let a term that nests sequences, alternations,
    repetitions and groups be evaluated for two lists of values, those of the first able to take the
    places of those of the second and with analyses that are at most theirs.  If the second
    evaluation succeeds, then so does the first, and for every term in the term the node that it has
    in the first evaluation is at most what it is in the second. -/
theorem tighter_values_have_tighter_nodes {values values' : Values}
    (hvalues : values.Tighten values') {t : Term} (ht : t.IsComposition) {m : Node}
    (hm : (t.eval values').Returns m) :
    (∃ n, (t.eval values).Returns n) ∧
    ∀ s : Term, s.OccursIn t → ∃ a b, (s.eval values).Returns a ∧ (s.eval values').Returns b ∧
      a.profile.analysis.AtMost b.profile.analysis := by
  constructor
  · obtain ⟨n, hn, -⟩ := follows_eval hvalues ht m hm
    exact ⟨n, hn⟩
  · intro s hs
    obtain ⟨b, hb⟩ := hs.returns hm
    obtain ⟨a, ha, htightens⟩ := follows_eval hvalues (ht.of_occursIn hs) b hb
    exact ⟨a, b, ha, hb, htightens.analysis⟩

/-- A look-behind around a row of two items: a single character merges with its neighbour, and the
    group that it stands for does not. -/
theorem tighter_values_have_tighter_nodes_across_a_merge :
    let longer : Group := .build .nonCapturing (.literal "abc")
    let values : Values := #[some (.charLiteral 'a')]
    let values' : Values := #[some (.group longer)]
    let row : Term := .binary .followedBy (.value 0) (.leaf (.literal "x"))
    let t : Term := .unary (.enclose [.positiveLookBehind]) row
    let merged : Sequence := (Sequence.pair (.ofChar 'a') (.ofLiteral "x")).value
    let apart : Sequence := (Sequence.pair (.ofGroup longer) (.ofLiteral "x")).value
    values.Tighten values' ∧ (∃ m, (t.eval values').Returns m) ∧ (∃ n, (t.eval values).Returns n) ∧
      merged.components.length = 1 ∧ apart.components.length = 2 ∧
      (row.eval values).Returns (.sequence merged) ∧ (row.eval values').Returns (.sequence apart) ∧
      merged.toExpr.analysis.AtMost apart.toExpr.analysis := by
  intro longer values values' row t merged apart
  have hchar : Constructible (.charLiteral 'a') := .leaf (.charLiteral 'a') rfl
  have habc : Constructible (.literal "abc") := .leaf (.literal "abc") rfl
  have hlonger : Constructible (.group longer) := .unary (.wrap .nonCapturing) habc rfl
  have hvalues : values.Tighten values' := by
    intro step m hm
    cases step with
    | zero =>
        obtain rfl := Option.some.inj hm
        exact ⟨_, rfl, hchar, hlonger, ⟨rfl, rfl, rfl, rfl⟩, by decide, by decide, by decide⟩
    | succ step => exact nomatch hm
  have ht : t.IsComposition := .unary rfl (.binary rfl (.value 0) (.leaf (.literal "x")))
  have hm : (t.eval values').Returns (.group (.build .positiveLookBehind apart.toExpr)) := rfl
  have hrow : row.OccursIn t := .operand (List.mem_singleton.mpr rfl) .self
  have hmerged : (row.eval values).Returns (.sequence merged) := rfl
  have hapart : (row.eval values').Returns (.sequence apart) := rfl
  obtain ⟨hsucceeds, hnodes⟩ := tighter_values_have_tighter_nodes hvalues ht hm
  obtain ⟨a, b, ha, hb, hatMost⟩ := hnodes row hrow
  obtain rfl := Except.ok.inj (ha.symm.trans hmerged)
  obtain rfl := Except.ok.inj (hb.symm.trans hapart)
  exact ⟨hvalues, ⟨_, hm⟩, hsucceeds, rfl, rfl, hmerged, hapart, hatMost⟩

end PatternAlgebra
