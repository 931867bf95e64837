import PatternAlgebra.Proofs.Analysis.Lengths
import PatternAlgebra.Proofs.Expr.Occurrences
/-!
# What a look-behind may enclose

A look-behind is refused around an expression without a bounded length, and the bounded length is
computed from one node to the next, with a flag that says when a bound must not be multiplied.
Seen from outside, this comes to a condition on the whole tree: nothing in it is without end,
nothing under a counted quantifier varies in length, and no part of it is too long.

The flag is dropped under a quantifier without end.  But there the bound is lost for good, so the
flag is followed only through trees without such a quantifier, and in these it tells exactly
whether something varies.  The flag and the bound are carried through one induction, since the
bound of a repetition asks for the flag of its base.
-/

namespace PatternAlgebra

/-! ## Quantifiers -/

namespace Quantifier

/-- Whether there is no largest number of repetitions. -/
def isOpenEnded : Quantifier → Bool
  | anyTimes => true
  | atLeastOnce => true
  | range _ none => true
  | _ => false

/-- Whether the largest number of repetitions is written out. -/
def isCounted : Quantifier → Bool
  | exactly _ => true
  | range _ (some _) => true
  | _ => false

/-- Whether the base may be left out. -/
def mayVanish : Quantifier → Bool
  | optional => true
  | range min _ => min == 0
  | _ => false

/-- The largest number of repetitions, if there is one. -/
def most : Quantifier → Nat
  | optional => 1
  | exactly count => count
  | range _ (some max) => max
  | _ => 0

/-- A quantifier without end has no bound, whatever is repeated. -/
theorem boundedLength_of_isOpenEnded {q : Quantifier} (h : q.isOpenEnded = true)
    (base : Analysis) : (q.analysis base).boundedLength = none := by
  cases q with
  | anyTimes => rfl
  | atLeastOnce => rfl
  | optional => exact nomatch h
  | exactly count => exact nomatch h
  | range min max =>
      cases max with
      | none => exact ite_self none
      | some max => exact nomatch h

/-- A counted quantifier multiplies the bound of a base that may be repeated. -/
theorem boundedLength_of_isCounted {q : Quantifier} (h : q.isCounted = true) (base : Analysis) :
    (q.analysis base).boundedLength
      = if base.repetitionInvalidatesBounds then none else mulBound base.boundedLength q.most := by
  cases q with
  | anyTimes => exact nomatch h
  | atLeastOnce => exact nomatch h
  | optional => exact nomatch h
  | exactly count => rfl
  | range min max =>
      cases max with
      | none => exact nomatch h
      | some max => rfl

theorem repetitionInvalidatesBounds_of_isCounted {q : Quantifier} (h : q.isCounted = true)
    (base : Analysis) :
    (q.analysis base).repetitionInvalidatesBounds
      = (q.mayVanish || base.repetitionInvalidatesBounds) := by
  cases q with
  | anyTimes => exact nomatch h
  | atLeastOnce => exact nomatch h
  | optional => exact nomatch h
  | exactly count => rfl
  | range min max => rfl

/-- A quantifier is optional, counted or without end. -/
theorem optional_or_isCounted_or_isOpenEnded (q : Quantifier) :
    q = optional ∨ q.isCounted = true ∨ q.isOpenEnded = true := by
  cases q with
  | anyTimes => exact Or.inr (Or.inr rfl)
  | atLeastOnce => exact Or.inr (Or.inr rfl)
  | optional => exact Or.inl rfl
  | exactly count => exact Or.inr (Or.inl rfl)
  | range min max =>
      cases max with
      | none => exact Or.inr (Or.inr rfl)
      | some max => exact Or.inr (Or.inl rfl)

theorem isOpenEnded_of_isCounted {q : Quantifier} (h : q.isCounted = true) :
    q.isOpenEnded = false := by
  cases q with
  | range min max =>
      cases max with
      | none => exact nomatch h
      | some max => rfl
  | exactly count => rfl
  | _ => exact nomatch h

end Quantifier

/-! ## Bounds of alternatives -/

/-- Alternatives have a bound if every one of them has, and it is the greatest of theirs. -/
theorem foldl_maxBounds_eq_some_iff {α : Type} {alternatives : List α} {analysis : α → Analysis}
    {length : α → Nat} {Bounded : α → Prop}
    (h : ∀ a ∈ alternatives, ∀ n,
      (analysis a).boundedLength = some n ↔ Bounded a ∧ length a = n) (start n : Nat) :
    (alternatives.map analysis).foldl (fun bound a => maxBounds bound a.boundedLength) (some start)
        = some n ↔
      (∀ a ∈ alternatives, Bounded a) ∧ (alternatives.map length).foldl max start = n := by
  induction alternatives generalizing start with
  | nil =>
      constructor
      · intro hn
        exact ⟨(fun a ha => nomatch ha), Option.some.inj hn⟩
      · rintro ⟨-, hn⟩
        exact congrArg some hn
  | cons a alternatives ih =>
      have hfirst := h a (by simp)
      have hrest := ih fun b hb => h b (by simp [hb])
      rw [List.map_cons, List.foldl_cons, List.map_cons, List.foldl_cons, List.forall_mem_cons]
      cases hbound : (analysis a).boundedLength with
      | none =>
          -- a bound that is lost does not come back, and no alternative is without one
          constructor
          · intro hn
            obtain ⟨_, hnone, -⟩ := foldl_maxBounds_eq_some hn
            exact nomatch hnone
          · rintro ⟨⟨ha, -⟩, -⟩
            exact nomatch hbound.symm.trans ((hfirst _).mpr ⟨ha, rfl⟩)
      | some c =>
          obtain ⟨ha, rfl⟩ := (hfirst c).mp hbound
          rw [show maxBounds (some start) (some (length a)) = some (max start (length a)) from rfl,
            hrest]
          constructor
          · rintro ⟨hparts, hn⟩
            exact ⟨⟨ha, hparts⟩, hn⟩
          · rintro ⟨⟨-, hparts⟩, hn⟩
            exact ⟨hparts, hn⟩

/-! ## Exact lengths -/

/-- The length of an atom. -/
def RawAtom.exactLength : RawAtom → Nat
  | entity e => if e.isZeroWidth then 0 else 1
  | literal text => text.length

/-- The length of all atoms together. -/
def Raw.exactLength (r : Raw) : Nat := (r.atoms.map RawAtom.exactLength).sum

namespace Expr

mutual

/-- The greatest length of an expression, without a ceiling; zero where there is none. -/
def exactLength : Expr → Nat
  | literal text => text.length
  | charLiteral _ => 1
  | raw r => r.exactLength
  | adopted _ => 0
  | charClass _ => 1
  | sequence components _ => (exactLengths components).sum
  | alternation alternatives _ => (exactLengths alternatives).foldl max 0
  | quantified base quantifier _ _ => exactLength base * quantifier.most
  | group _ nested _ => exactLength nested

/-- The greatest length of each expression. -/
def exactLengths : List Expr → List Nat
  | [] => []
  | e :: es => exactLength e :: exactLengths es

end

theorem exactLengths_eq_map (es : List Expr) : exactLengths es = es.map exactLength := by
  induction es with
  | nil => rfl
  | cons e es ih => rw [exactLengths, List.map_cons, ih]

/-! ## The condition -/

/-- Whether the node itself has no greatest length. -/
def isOpenEnded : Expr → Bool
  | adopted _ => true
  | quantified _ quantifier _ _ => quantifier.isOpenEnded
  | _ => false

/-- Whether the node itself must not be multiplied: it is empty, or it leaves a choice. -/
def varies : Expr → Bool
  | literal text => text == ""
  | raw (.atom (.literal text)) => text == ""
  | alternation _ _ => true
  | quantified _ quantifier _ _ => quantifier.mayVanish
  | _ => false

/-- Nothing in the tree is without end. -/
def Closed (e : Expr) : Prop := ∀ d, OccursIn d e → d.isOpenEnded = false

/-- Nothing in the tree varies. -/
def Steady (e : Expr) : Prop := ∀ d, OccursIn d e → d.varies = false

/-- If the node is a counted repetition, nothing below it varies. -/
def RepeatsSteadily : Expr → Prop
  | quantified base quantifier _ _ => quantifier.isCounted = true → base.Steady
  | _ => True

/-- A tree whose greatest length an engine can keep track of. -/
structure Measurable (e : Expr) : Prop where
  closed : e.Closed
  steady : ∀ d, OccursIn d e → d.RepeatsSteadily
  within : ∀ d, OccursIn d e → d.exactLength ≤ maxBoundedLength

variable {e : Expr}

theorem closed_iff :
    e.Closed ↔ e.isOpenEnded = false ∧ ∀ part ∈ e.subparts, part.Closed :=
  forall_occursIn_iff

theorem steady_iff : e.Steady ↔ e.varies = false ∧ ∀ part ∈ e.subparts, part.Steady :=
  forall_occursIn_iff

/-- The condition on a tree, by what it says of the topmost node. -/
theorem measurable_iff :
    e.Measurable ↔ e.isOpenEnded = false ∧ e.RepeatsSteadily ∧
      e.exactLength ≤ maxBoundedLength ∧ ∀ part ∈ e.subparts, part.Measurable := by
  constructor
  · rintro ⟨hclosed, hsteady, hwithin⟩
    obtain ⟨hend, hclosed⟩ := closed_iff.mp hclosed
    obtain ⟨hrepeats, hsteady⟩ := forall_occursIn_iff.mp hsteady
    obtain ⟨hle, hwithin⟩ := forall_occursIn_iff.mp hwithin
    exact ⟨hend, hrepeats, hle, fun part hpart =>
      ⟨hclosed part hpart, hsteady part hpart, hwithin part hpart⟩⟩
  · rintro ⟨hend, hrepeats, hle, hparts⟩
    constructor
    case closed => exact closed_iff.mpr ⟨hend, fun part hpart => (hparts part hpart).closed⟩
    case steady =>
      exact forall_occursIn_iff.mpr ⟨hrepeats, fun part hpart => (hparts part hpart).steady⟩
    case within =>
      exact forall_occursIn_iff.mpr ⟨hle, fun part hpart => (hparts part hpart).within⟩

/-! ## The analysis and the tree -/

/-- The analysis of an expression tells about its tree: the bound is the greatest length if the
    condition holds, and the flag is off if nothing varies, as long as nothing is without end. -/
structure Reflects (e : Expr) : Prop where
  bound_iff : ∀ n, e.analysis.boundedLength = some n ↔ e.Measurable ∧ e.exactLength = n
  flag_iff : e.Closed → (e.analysis.repetitionInvalidatesBounds = false ↔ e.Steady)

theorem reflects_of_leaf (hparts : e.subparts = []) (hend : e.isOpenEnded = false)
    (hrepeats : e.RepeatsSteadily)
    (hbound : e.analysis.boundedLength = clampBound (some e.exactLength))
    (hflag : e.analysis.repetitionInvalidatesBounds = e.varies) : e.Reflects := by
  constructor
  case bound_iff =>
    intro n
    rw [hbound, clampBound_eq_some_iff, measurable_iff, hparts]
    constructor
    · rintro ⟨hlength, hle⟩
      obtain rfl := Option.some.inj hlength
      exact ⟨⟨hend, hrepeats, hle, fun part hpart => nomatch hpart⟩, rfl⟩
    · rintro ⟨⟨-, -, hle, -⟩, rfl⟩
      exact ⟨rfl, hle⟩
  case flag_iff =>
    intro _
    rw [hflag, steady_iff, hparts]
    exact ⟨fun hvaries => ⟨hvaries, fun part hpart => nomatch hpart⟩, fun h => h.1⟩

/-- Parts in a row add up, and each of them counts. -/
theorem reflects_of_row (hend : e.isOpenEnded = false) (hvaries : e.varies = false)
    (hrepeats : e.RepeatsSteadily)
    (hanalysis : e.analysis = .concatenation (e.subparts.map analysis))
    (hlength : e.exactLength = (e.subparts.map exactLength).sum)
    (h : ∀ part ∈ e.subparts, part.Reflects) : e.Reflects := by
  constructor
  case bound_iff =>
    intro n
    rw [hanalysis, Analysis.boundedLength_concatenation_eq_some_iff
      (fun part hpart => (h part hpart).bound_iff) n, ← hlength, measurable_iff]
    constructor
    · rintro ⟨hparts, rfl, hle⟩
      exact ⟨⟨hend, hrepeats, hle, hparts⟩, rfl⟩
    · rintro ⟨⟨-, -, hle, hparts⟩, rfl⟩
      exact ⟨hparts, rfl, hle⟩
  case flag_iff =>
    intro hclosed
    -- every part is closed as well, which its own equivalence asks for
    obtain ⟨-, hclosed⟩ := closed_iff.mp hclosed
    rw [hanalysis, Analysis.repetitionInvalidatesBounds_concatenation, List.any_map,
      List.any_eq_false, steady_iff]
    constructor
    · intro hflags
      refine ⟨hvaries, fun part hpart => ?_⟩
      exact ((h part hpart).flag_iff (hclosed part hpart)).mp
        (Bool.eq_false_of_not_eq_true (hflags part hpart))
    · rintro ⟨-, hsteady⟩ part hpart
      exact Bool.not_eq_true _ ▸
        ((h part hpart).flag_iff (hclosed part hpart)).mpr (hsteady part hpart)

/-- Alternatives always vary, and the longest one counts. -/
theorem reflects_alternation {alternatives : List Expr}
    (h : ∀ a ∈ alternatives, a.Reflects) :
    (alternation alternatives (.alternation (alternatives.map Expr.profile))).Reflects := by
  have hanalysis : (Profile.alternation (alternatives.map Expr.profile)).analysis
      = .alternation (alternatives.map analysis) := by
    show Analysis.alternation ((alternatives.map Expr.profile).map _) = _
    rw [List.map_map]
    rfl
  constructor
  case bound_iff =>
    intro n
    have hiff := foldl_maxBounds_eq_some_iff (fun a ha => (h a ha).bound_iff) 0 n
    show (Profile.alternation _).analysis.boundedLength = some n ↔ _
    rw [hanalysis, measurable_iff, exactLength, exactLengths_eq_map]
    constructor
    · intro hbound
      obtain ⟨hparts, rfl⟩ := hiff.mp hbound
      refine ⟨⟨rfl, trivial, ?_, hparts⟩, rfl⟩
      -- the greatest length is zero or the length of an alternative, which is not too long
      obtain ⟨m, hm, -, -, hfrom⟩ := foldl_maxBounds_eq_some hbound
      rcases hfrom with heq | ⟨b, hb, hbound⟩
      · rw [heq, ← Option.some.inj hm]
        exact Nat.zero_le _
      · obtain ⟨a, ha, rfl⟩ := List.mem_map.mp hb
        obtain ⟨hmeasurable, hlength⟩ := ((h a ha).bound_iff _).mp hbound
        rw [← hlength]
        exact hmeasurable.within a .self
    · rintro ⟨⟨-, -, -, hparts⟩, hlength⟩
      exact hiff.mpr ⟨hparts, hlength⟩
  case flag_iff =>
    intro _
    constructor
    · intro hflag
      exact nomatch hflag
    · intro hsteady
      exact nomatch (steady_iff.mp hsteady).1

theorem reflects_group {kind : GroupKind} {nested : Expr} {profile : Profile}
    (hanalysis : profile.analysis = nested.analysis) (h : nested.Reflects) :
    (group kind nested profile).Reflects := by
  have hsubparts : (group kind nested profile).subparts = [nested] := rfl
  constructor
  case bound_iff =>
    intro n
    show profile.analysis.boundedLength = some n ↔ _
    rw [hanalysis, h.bound_iff, measurable_iff (e := group kind nested profile), hsubparts,
      List.forall_mem_singleton, exactLength]
    constructor
    · rintro ⟨hnested, rfl⟩
      exact ⟨⟨rfl, trivial, hnested.within nested .self, hnested⟩, rfl⟩
    · rintro ⟨⟨-, -, -, hnested⟩, hlength⟩
      exact ⟨hnested, hlength⟩
  case flag_iff =>
    intro hclosed
    rw [closed_iff, hsubparts, List.forall_mem_singleton] at hclosed
    rw [steady_iff, hsubparts, List.forall_mem_singleton, ← h.flag_iff hclosed.2]
    show profile.analysis.repetitionInvalidatesBounds = false ↔ _
    rw [hanalysis]
    exact ⟨fun hflag => ⟨rfl, hflag⟩, fun hflag => hflag.2⟩

/-! ### Repetitions -/

section Repetitions

variable {base : Expr} {quantifier : Quantifier} {mode : Mode} {profile : Profile}

theorem measurable_quantified_iff :
    (quantified base quantifier mode profile).Measurable ↔
      quantifier.isOpenEnded = false ∧ (quantifier.isCounted = true → base.Steady) ∧
        base.exactLength * quantifier.most ≤ maxBoundedLength ∧ base.Measurable := by
  rw [measurable_iff, exactLength]
  show _ ∧ _ ∧ _ ∧ (∀ part ∈ [base], part.Measurable) ↔ _
  rw [List.forall_mem_singleton]
  rfl

theorem steady_quantified_iff :
    (quantified base quantifier mode profile).Steady ↔
      quantifier.mayVanish = false ∧ base.Steady := by
  rw [steady_iff]
  show _ ∧ (∀ part ∈ [base], part.Steady) ↔ _
  rw [List.forall_mem_singleton]
  rfl

theorem closed_quantified_iff :
    (quantified base quantifier mode profile).Closed ↔
      quantifier.isOpenEnded = false ∧ base.Closed := by
  rw [closed_iff]
  show _ ∧ (∀ part ∈ [base], part.Closed) ↔ _
  rw [List.forall_mem_singleton]
  rfl

/-- An open end is the end of every bound. -/
theorem reflects_of_isOpenEnded (hopen : quantifier.isOpenEnded = true)
    (hanalysis : profile.analysis = quantifier.analysis base.analysis) :
    (quantified base quantifier mode profile).Reflects := by
  constructor
  case bound_iff =>
    intro n
    show profile.analysis.boundedLength = some n ↔ _
    rw [hanalysis, Quantifier.boundedLength_of_isOpenEnded hopen, measurable_quantified_iff, hopen]
    constructor
    · exact fun hnone => nomatch hnone
    · rintro ⟨⟨hfalse, -⟩, -⟩
      exact nomatch hfalse
  case flag_iff =>
    intro hclosed
    exact nomatch hopen.symm.trans (closed_quantified_iff.mp hclosed).1

/-- A base that is taken once or not at all keeps its bound and always varies. -/
theorem reflects_optional
    (hanalysis : profile.analysis = Quantifier.optional.analysis base.analysis)
    (h : base.Reflects) : (quantified base .optional mode profile).Reflects := by
  constructor
  case bound_iff =>
    intro n
    show profile.analysis.boundedLength = some n ↔ _
    rw [hanalysis, measurable_quantified_iff, exactLength]
    show base.analysis.boundedLength = some n ↔ (_ ∧ _ ∧ base.exactLength * 1 ≤ _ ∧ _) ∧
      base.exactLength * 1 = n
    rw [h.bound_iff, Nat.mul_one]
    constructor
    · rintro ⟨hbase, rfl⟩
      exact ⟨⟨rfl, (fun hcounted => nomatch hcounted), hbase.within base .self, hbase⟩, rfl⟩
    · rintro ⟨⟨-, -, -, hbase⟩, hlength⟩
      exact ⟨hbase, hlength⟩
  case flag_iff =>
    intro _
    show profile.analysis.repetitionInvalidatesBounds = false ↔ _
    rw [hanalysis, steady_quantified_iff]
    constructor
    · exact fun hflag => nomatch hflag
    · rintro ⟨hvanish, -⟩
      exact nomatch hvanish

/-- A counted repetition has a bound if nothing in the base varies. -/
theorem reflects_of_isCounted (hcounted : quantifier.isCounted = true)
    (hanalysis : profile.analysis = quantifier.analysis base.analysis) (h : base.Reflects) :
    (quantified base quantifier mode profile).Reflects := by
  have hend := Quantifier.isOpenEnded_of_isCounted hcounted
  constructor
  case bound_iff =>
    intro n
    show profile.analysis.boundedLength = some n ↔ _
    rw [hanalysis, Quantifier.boundedLength_of_isCounted hcounted, measurable_quantified_iff,
      exactLength]
    constructor
    · intro hbound
      obtain ⟨hflag, hbound⟩ := Option.ite_none_left_eq_some.mp hbound
      obtain ⟨m, hm, rfl, hle⟩ := mulBound_eq_some_iff.mp hbound
      obtain ⟨hbase, rfl⟩ := (h.bound_iff m).mp hm
      -- a base with a bound is closed, so its flag can be trusted
      have hsteady := (h.flag_iff hbase.closed).mp (Bool.eq_false_of_not_eq_true hflag)
      exact ⟨⟨hend, fun _ => hsteady, hle, hbase⟩, rfl⟩
    · rintro ⟨⟨-, hsteady, hle, hbase⟩, rfl⟩
      have hflag := (h.flag_iff hbase.closed).mpr (hsteady hcounted)
      rw [hflag, if_neg Bool.false_ne_true]
      exact mulBound_eq_some_iff.mpr ⟨_, (h.bound_iff _).mpr ⟨hbase, rfl⟩, rfl, hle⟩
  case flag_iff =>
    intro hclosed
    obtain ⟨-, hclosed⟩ := closed_quantified_iff.mp hclosed
    show profile.analysis.repetitionInvalidatesBounds = false ↔ _
    rw [hanalysis, Quantifier.repetitionInvalidatesBounds_of_isCounted hcounted,
      Bool.or_eq_false_iff, steady_quantified_iff, h.flag_iff hclosed]

theorem reflects_quantified
    (hanalysis : profile.analysis = quantifier.analysis base.analysis) (h : base.Reflects) :
    (quantified base quantifier mode profile).Reflects := by
  rcases quantifier.optional_or_isCounted_or_isOpenEnded with rfl | hcounted | hopen
  · exact reflects_optional hanalysis h
  · exact reflects_of_isCounted hcounted hanalysis h
  · exact reflects_of_isOpenEnded hopen hanalysis

end Repetitions

/-! ### Every node -/

theorem length_beq_zero (text : String) : (text.length == 0) = (text == "") := by
  rw [Bool.eq_iff_iff, beq_iff_eq, beq_iff_eq, String.length_eq_zero_iff]

theorem reflects_atom (a : RawAtom) : (raw (.atom a)).Reflects := by
  have hlength : (raw (.atom a)).exactLength = a.exactLength := List.sum_singleton
  apply reflects_of_leaf (e := raw (.atom a)) rfl rfl trivial
  case hbound =>
    rw [hlength]
    cases a with
    | entity e =>
        show e.analysis.boundedLength = clampBound (some (if e.isZeroWidth then 0 else 1))
        rw [Entity.analysis]
        cases e.isZeroWidth <;> rfl
    | literal text => rfl
  case hflag =>
    cases a with
    | entity e =>
        show e.analysis.repetitionInvalidatesBounds = false
        rw [Entity.analysis]
        cases e.isZeroWidth <;> rfl
    | literal text => exact length_beq_zero text

theorem reflects_compound {c : Compound} (h : c.Coherent) : (raw (.compound c)).Reflects := by
  apply reflects_of_row (e := raw (.compound c)) rfl rfl trivial
  case hanalysis =>
    show c.profile.analysis
      = .concatenation ((c.atoms.map fun a => raw (.atom a)).map Expr.analysis)
    rw [h.analysis_eq, List.map_map]
    show Analysis.concatenation ((c.atoms.map RawAtom.profile).map _) = _
    rw [List.map_map]
    rfl
  case hlength =>
    show (c.atoms.map RawAtom.exactLength).sum
      = ((c.atoms.map fun a => raw (.atom a)).map exactLength).sum
    rw [List.map_map]
    exact congrArg List.sum (List.map_congr_left fun a _ => List.sum_singleton.symm)
  case h =>
    intro part hpart
    obtain ⟨a, -, rfl⟩ := List.mem_map.mp hpart
    exact reflects_atom a

theorem reflects_sequence {components : List Expr} (h : ∀ e ∈ components, e.Reflects) :
    (Sequence.ofComponents components).toExpr.Reflects := by
  apply reflects_of_row (e := (Sequence.ofComponents components).toExpr) rfl rfl trivial
  case hanalysis =>
    show Analysis.concatenation ((components.map Expr.profile).map _)
      = .concatenation (components.map analysis)
    rw [List.map_map]
    rfl
  case hlength =>
    show (exactLengths components).sum = (components.map exactLength).sum
    rw [exactLengths_eq_map]
  case h => exact h

/-- The stored facts of every well-built expression tell about its whole tree. -/
theorem WellBuilt.reflects (h : e.WellBuilt) : e.Reflects := by
  induction h with
  | literal text =>
      exact reflects_of_leaf (e := .literal text) rfl rfl trivial rfl (length_beq_zero text)
  | charLiteral c => exact reflects_of_leaf (e := .charLiteral c) rfl rfl trivial rfl rfl
  | @raw r coherent =>
      cases r with
      | atom a => exact reflects_atom a
      | compound c => exact reflects_compound coherent
  | adopted pattern =>
      -- without end itself, so neither side of either equivalence comes up
      constructor
      case bound_iff =>
        intro n
        constructor
        · exact fun hnone => nomatch hnone
        · rintro ⟨hmeasurable, -⟩
          exact nomatch hmeasurable.closed _ .self
      case flag_iff =>
        intro hclosed
        exact nomatch hclosed _ .self
  | @charClass k _ => exact reflects_of_leaf (e := .charClass k) rfl rfl trivial rfl rfl
  | sequence _ _ _ _ _ ih => exact reflects_sequence ih
  | alternation _ _ _ _ ih => exact reflects_alternation ih
  | quantified _ _ _ ih => exact reflects_quantified rfl ih
  | group _ _ ih => exact reflects_group rfl ih

/-- A look-behind in a well-built tree encloses what it may enclose. -/
theorem WellBuilt.measurable_of_lookBehind (h : e.WellBuilt) {kind : GroupKind} {nested : Expr}
    {profile : Profile} (hoccurs : (Expr.group kind nested profile).OccursIn e)
    (hkind : kind.isLookBehind = true) : nested.Measurable := by
  have hgroup := h.of_occursIn hoccurs
  have hnested : nested.WellBuilt := hgroup.of_mem_parts (List.mem_singleton_self nested)
  have hbounded : nested.analysis.boundedLength ≠ none := by
    cases hgroup with
    | group bounded _ => exact bounded hkind
  obtain ⟨n, hn⟩ := Option.ne_none_iff_exists'.mp hbounded
  exact ((hnested.reflects.bound_iff n).mp hn).1

end Expr

/-! ## Look-behinds -/

theorem GroupKind.normalized_of_isLookBehind {kind : GroupKind}
    (hkind : kind.isLookBehind = true) : kind.normalized = kind := by
  cases kind with
  | positiveLookBehind => rfl
  | negativeLookBehind => rfl
  | _ => exact nomatch hkind

/-- **Which expressions a look-behind admits.**  A constructible expression has a bounded length if
    and only if its tree is measurable, and then it is the exact length.  So exactly these
    expressions are enclosed in look-behinds, whether the kind is given as it is or normalized, and
    every look-behind in a constructible expression encloses one of them.  Any other expression is
    refused with its text, as far as that can be written out. -/
theorem lookBehind_admits_measurable {e : Expr} (h : e.Constructible) :
    (e.analysis.boundedLength.isSome = true ↔ e.Measurable) ∧
    (∀ n, e.analysis.boundedLength = some n → n = e.exactLength) ∧
    (∀ kind : GroupKind, kind.isLookBehind = true →
      (e.Measurable → Group.ofKind kind e = .ok (pure (.ok (Group.build kind e)))) ∧
      (¬ e.Measurable → Group.ofKind kind e = Group.refusal <$> e.checkedRender ∧
        (Text.Fits e.render → Group.ofKind kind e = .ok (Group.refusal e.render))) ∧
      Group.wrap kind e = Group.ofKind kind e) ∧
    (∀ (kind : GroupKind) (nested : Expr) (profile : Profile),
      (Expr.group kind nested profile).OccursIn e → kind.isLookBehind = true →
        nested.Measurable) := by
  have hreflects := h.wellBuilt.reflects
  have hisSome : e.analysis.boundedLength.isSome = true ↔ e.Measurable := by
    rw [Option.isSome_iff_exists]
    constructor
    · rintro ⟨n, hn⟩
      exact ((hreflects.bound_iff n).mp hn).1
    · intro hmeasurable
      exact ⟨_, (hreflects.bound_iff _).mpr ⟨hmeasurable, rfl⟩⟩
  refine ⟨hisSome, ?_, ?_, ?_⟩
  · intro n hn
    exact ((hreflects.bound_iff n).mp hn).2.symm
  · intro kind hkind
    refine ⟨?_, ?_, ?_⟩
    · intro hmeasurable
      have hbound := Option.isSome_iff_ne_none.mp (hisSome.mpr hmeasurable)
      exact Group.ofKind_of_bounded fun _ => hbound
    · intro hmeasurable
      have hbound : e.analysis.boundedLength = none :=
        Option.not_isSome_iff_eq_none.mp fun hsome => hmeasurable (hisSome.mp hsome)
      have hrefused := Group.ofKind_of_unbounded hkind hbound
      refine ⟨hrefused, fun hfits => ?_⟩
      rw [hrefused, h.wellBuilt.checkedRender_eq_ok_iff.mpr hfits]
      rfl
    · rw [Group.wrap, GroupKind.normalized_of_isLookBehind hkind]
  · intro kind nested profile hoccurs hkind
    exact h.wellBuilt.measurable_of_lookBehind hoccurs hkind

/-- Alternatives that may be left out are admitted; repeated three times they are not, since they
    differ in length. -/
theorem lookBehind_admits_optional_alternatives :
    let either : Alternation :=
      .pair (Sequenceable.ofChar 'a').toAlternative (Sequenceable.ofLiteral "bc").toAlternative
    let grouped : Group := .build .nonCapturing either.toExpr
    let left : Expr := (Quantified.build (.ofGroup grouped) .optional .greedy).toExpr
    let repeated : Expr := (Quantified.build (.ofGroup grouped) (.exactly 3) .greedy).toExpr
    left.Constructible ∧ repeated.Constructible ∧ left.Measurable ∧ left.exactLength = 2 ∧
      Group.ofKind .positiveLookBehind left
        = .ok (pure (.ok (.build .positiveLookBehind left))) ∧
      ¬ repeated.Measurable ∧
      Group.ofKind .positiveLookBehind repeated = .ok (Group.refusal repeated.render) := by
  intro either grouped left repeated
  have ha : Script.Constructible (.charLiteral 'a') := .leaf (.charLiteral 'a') rfl
  have hbc : Script.Constructible (.literal "bc") := .leaf (.literal "bc") rfl
  have heither : Script.Constructible (.alternation either) := .binary .orElse ha hbc rfl
  have hgrouped : Script.Constructible (.group grouped) :=
    .unary (.wrap .nonCapturing) heither rfl
  have hquantified : Script.Constructible
      (.quantified (.build (.ofGroup grouped) .optional .greedy)) :=
    .unary (.quantify .optional .greedy) hgrouped rfl
  have hcounted : Script.Constructible
      (.quantified (.build (.ofGroup grouped) (.exactly 3) .greedy)) :=
    .unary (.quantify (.exactly 3) .greedy) hgrouped rfl
  have hleft : left.Constructible := .unary .toExpr hquantified rfl
  have hrepeated : repeated.Constructible := .unary .toExpr hcounted rfl
  obtain ⟨hadmits, hexact, hkinds, -⟩ := lookBehind_admits_measurable hleft
  obtain ⟨hrefuses, -, hkinds', -⟩ := lookBehind_admits_measurable hrepeated
  have hmeasurable : left.Measurable := hadmits.mp rfl
  have hnot : ¬ repeated.Measurable := fun h => nomatch hrefuses.mpr h
  exact ⟨hleft, hrepeated, hmeasurable, (hexact 2 rfl).symm,
    (hkinds .positiveLookBehind rfl).1 hmeasurable, hnot,
    ((hkinds' .positiveLookBehind rfl).2.1 hnot).2 (by decide)⟩

end PatternAlgebra
