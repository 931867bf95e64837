import PatternAlgebra.Proofs.Analysis.Lengths
import PatternAlgebra.Proofs.Expr.Occurrences
/-!
# Matching the empty text

One fact of the analysis says whether an expression can match the empty text.  It is exact: unless
something looks around, it holds if and only if zero is one of the lengths that the expression can
consume.

Another fact says whether repetition makes bounds unreliable, as it commonly does with a base that
may be empty.  An expression that may be empty and is still reported as safe to repeat has a node
in it that explains this: an assertion, a repetition of one or more, or a node that is always empty
since nothing is in it or it is repeated no times.
-/

namespace PatternAlgebra

/-! ## Zero as a length -/

theorem zero_mem_sumset {sets : List (Set ℕ)} : 0 ∈ sumset sets ↔ ∀ s ∈ sets, 0 ∈ s := by
  induction sets with
  | nil => simp [sumset]
  | cons s sets ih =>
      rw [List.forall_mem_cons, ← ih]
      constructor
      · -- a sum of natural numbers is zero only if both of them are
        rintro ⟨i, hi, j, hj, hsum⟩
        obtain ⟨rfl, rfl⟩ := Nat.add_eq_zero_iff.mp hsum
        exact ⟨hi, hj⟩
      · rintro ⟨hs, hsets⟩
        exact ⟨0, hs, 0, hsets, rfl⟩

/-- A flag for the empty text is raised only if zero is a length, and whenever it is where that is
    asked for. -/
structure FlagsZero (flag : Bool) (lengths : Set ℕ) (isExact : Prop) : Prop where
  sound : flag = true → 0 ∈ lengths
  complete : isExact → 0 ∈ lengths → flag = true

namespace FlagsZero

variable {flag : Bool} {s : Set ℕ} {isExact isExact' : Prop}

theorem mono (h : FlagsZero flag s isExact) (himp : isExact' → isExact) :
    FlagsZero flag s isExact' :=
  ⟨h.sound, fun hexact => h.complete (himp hexact)⟩

theorem singleton (n : ℕ) : FlagsZero (n == 0) {n} isExact where
  sound := by
    intro hflag
    exact (beq_iff_eq.mp hflag).symm
  complete := by
    intro _ hzero
    exact beq_iff_eq.mpr (Set.mem_singleton_iff.mp hzero).symm

/-- Parts in a row, each of them with the flag of its analysis. -/
theorem concatenation {α : Type} {parts : List α} {analysis : α → Analysis}
    {lengths : α → Set ℕ}
    (h : ∀ a ∈ parts, FlagsZero (analysis a).possiblyZeroLength (lengths a) isExact) :
    FlagsZero (Analysis.concatenation (parts.map analysis)).possiblyZeroLength
      (sumset (parts.map lengths)) isExact := by
  have hflag : (Analysis.concatenation (parts.map analysis)).possiblyZeroLength = true ↔
      ∀ a ∈ parts, (analysis a).possiblyZeroLength = true := by
    rw [Analysis.possiblyZeroLength_concatenation, List.all_map, List.all_eq_true]
    rfl
  have hzero : 0 ∈ sumset (parts.map lengths) ↔ ∀ a ∈ parts, 0 ∈ lengths a := by
    rw [zero_mem_sumset, List.forall_mem_map]
  constructor
  case sound =>
    intro hall
    exact hzero.mpr fun a ha => (h a ha).sound (hflag.mp hall a ha)
  case complete =>
    intro hexact hall
    exact hflag.mpr fun a ha => (h a ha).complete hexact (hzero.mp hall a ha)

end FlagsZero

/-! ## Repetitions -/

namespace Quantifier

/-- The counts of a checked quantifier leave room for some number of repetitions. -/
theorem exists_allows {q : Quantifier} (h : q.check = .ok ()) : ∃ times, q.Allows times := by
  cases q with
  | anyTimes => exact ⟨0, trivial⟩
  | atLeastOnce => exact ⟨1, Nat.le_refl 1⟩
  | optional => exact ⟨0, Nat.zero_le 1⟩
  | exactly count => exact ⟨count, rfl⟩
  | range min max =>
      cases max with
      | none => exact ⟨min, Nat.le_refl min⟩
      | some max => exact ⟨min, Nat.le_refl min, le_of_check_range h⟩

/-- A repetition is empty if it may be left out or its base may be empty. -/
theorem zero_mem_lengths_iff {q : Quantifier} (h : q.check = .ok ()) {s : Set ℕ} :
    0 ∈ q.lengths s ↔ q.Allows 0 ∨ 0 ∈ s := by
  constructor
  · rintro ⟨times, htimes, hzero⟩
    cases times with
    | zero => exact Or.inl htimes
    | succ times =>
        rw [List.replicate_succ, zero_mem_sumset] at hzero
        exact Or.inr (hzero s (by simp))
  · rintro (hnone | hs)
    · exact ⟨0, hnone, rfl⟩
    · obtain ⟨times, htimes⟩ := exists_allows h
      refine ⟨times, htimes, zero_mem_sumset.mpr ?_⟩
      intro t ht
      rw [List.eq_of_mem_replicate ht]
      exact hs

theorem possiblyZeroLength_analysis_iff (q : Quantifier) (base : Analysis) :
    (q.analysis base).possiblyZeroLength = true ↔
      q.Allows 0 ∨ base.possiblyZeroLength = true := by
  cases q with
  | anyTimes => exact ⟨fun _ => Or.inl trivial, fun _ => rfl⟩
  | atLeastOnce => simp [analysis, Allows]
  | optional => exact ⟨fun _ => Or.inl (Nat.zero_le 1), fun _ => rfl⟩
  | exactly count =>
      show (count == 0 || base.possiblyZeroLength) = true ↔ 0 = count ∨ _
      rw [Bool.or_eq_true, beq_iff_eq]
      exact or_congr_left eq_comm
  | range min max =>
      have hallows : (range min max).Allows 0 ↔ min = 0 := by
        cases max <;> simp [Allows]
      show (min == 0 || base.possiblyZeroLength) = true ↔ _
      rw [Bool.or_eq_true, beq_iff_eq, hallows]

end Quantifier

theorem FlagsZero.quantified {q : Quantifier} (hcheck : q.check = .ok ()) {base : Analysis}
    {s : Set ℕ} {isExact : Prop} (h : FlagsZero base.possiblyZeroLength s isExact) :
    FlagsZero (q.analysis base).possiblyZeroLength (q.lengths s) isExact where
  sound := by
    intro hflag
    rw [Quantifier.zero_mem_lengths_iff hcheck]
    exact ((q.possiblyZeroLength_analysis_iff base).mp hflag).imp_right h.sound
  complete := by
    intro hexact hzero
    rw [Quantifier.possiblyZeroLength_analysis_iff]
    exact ((Quantifier.zero_mem_lengths_iff hcheck).mp hzero).imp_right (h.complete hexact)

/-! ## Expressions -/

theorem RawAtom.flagsZero (a : RawAtom) (isExact : Prop) :
    FlagsZero a.profile.analysis.possiblyZeroLength a.lengths isExact := by
  cases a with
  | entity e =>
      show FlagsZero e.analysis.possiblyZeroLength (if e.isZeroWidth then {0} else {1}) isExact
      unfold Entity.analysis
      split
      · exact .singleton 0
      · exact .singleton 1
  | literal text => exact .singleton text.length

theorem Raw.Coherent.flagsZero {r : Raw} (h : r.Coherent) (isExact : Prop) :
    FlagsZero r.profile.analysis.possiblyZeroLength r.lengths isExact := by
  cases r with
  | atom a => exact a.flagsZero isExact
  | compound c =>
      have hc : c.Coherent := h
      show FlagsZero c.profile.analysis.possiblyZeroLength _ _
      rw [hc.analysis_eq]
      show FlagsZero
        (Analysis.concatenation ((c.atoms.map RawAtom.profile).map _)).possiblyZeroLength _ _
      rw [List.map_map]
      exact .concatenation fun a _ => a.flagsZero isExact

/-- A well-built expression is reported to be possibly empty only if zero is one of its lengths,
    and whenever it is unless the expression looks around. -/
theorem Expr.WellBuilt.flagsZero {e : Expr} (h : e.WellBuilt) :
    FlagsZero e.analysis.possiblyZeroLength e.lengths (e.hasLookAround = false) := by
  induction h with
  | literal text => exact .singleton text.length
  | charLiteral c => exact .singleton 1
  | raw coherent => exact coherent.flagsZero _
  | adopted pattern => exact ⟨fun _ => Set.mem_univ 0, fun _ _ => rfl⟩
  | charClass _ => exact .singleton 1
  | @sequence components _ _ _ _ _ ih =>
      show FlagsZero
        (Analysis.concatenation ((components.map Expr.profile).map _)).possiblyZeroLength
        (lengthsInRow components) (anyLookAround components = false)
      rw [lengthsInRow_eq_sumset, List.map_map]
      exact .concatenation fun e he => (ih e he).mono fun hnone => hasLookAround_of_mem hnone he
  | @alternation alternatives _ _ _ _ ih =>
      have hflag : (Analysis.alternation (alternatives.map Expr.analysis)).possiblyZeroLength
          = true ↔ ∃ e ∈ alternatives, e.analysis.possiblyZeroLength = true := by
        show (alternatives.map Expr.analysis).any _ = true ↔ _
        rw [List.any_map, List.any_eq_true]
        rfl
      show FlagsZero
        (Analysis.alternation ((alternatives.map Expr.profile).map _)).possiblyZeroLength
        (lengthsOfAny alternatives) (anyLookAround alternatives = false)
      rw [List.map_map]
      constructor
      case sound =>
        intro hany
        obtain ⟨e, he, hzero⟩ := hflag.mp hany
        exact mem_lengthsOfAny.mpr ⟨e, he, (ih e he).sound hzero⟩
      case complete =>
        intro hnone hany
        obtain ⟨e, he, hzero⟩ := mem_lengthsOfAny.mp hany
        exact hflag.mpr ⟨e, he, (ih e he).complete (hasLookAround_of_mem hnone he) hzero⟩
  | quantified mode checked _ ih => exact ih.quantified checked
  | @group kind nested _ _ ih =>
      show FlagsZero nested.analysis.possiblyZeroLength
        (if kind.isLookAround then {0} else nested.lengths)
        ((kind.isLookAround || nested.hasLookAround) = false)
      cases hkind : kind.isLookAround with
      | true => exact ⟨fun _ => Set.mem_singleton 0, fun hnone => nomatch hnone⟩
      | false => exact ih

/-- A constructible expression without look-around is reported to be possibly empty if and only if
    it can consume no characters. -/
theorem possiblyZeroLength_iff_zero_mem_lengths {e : Expr} (h : e.Constructible)
    (hnone : e.hasLookAround = false) :
    e.analysis.possiblyZeroLength = true ↔ 0 ∈ e.lengths := by
  have hflags := h.wellBuilt.flagsZero
  exact ⟨hflags.sound, hflags.complete hnone⟩

/-- Two of a choice between a character and nothing, which may be empty although a repetition of
    two may not be left out. -/
theorem possiblyZeroLength_of_empty_choices :
    let either : Alternation :=
      .pair (Sequenceable.ofChar 'a').toAlternative (Sequenceable.ofLiteral "").toAlternative
    let grouped : Group := .build .nonCapturing either.toExpr
    let twice : Expr := (Quantified.build (.ofGroup grouped) (.exactly 2) .greedy).toExpr
    twice.Constructible ∧ twice.hasLookAround = false ∧
      twice.analysis.possiblyZeroLength = true ∧ 0 ∈ twice.lengths := by
  intro either grouped twice
  have ha : Script.Constructible (.charLiteral 'a') := .leaf (.charLiteral 'a') rfl
  have hempty : Script.Constructible (.literal "") := .leaf (.literal "") rfl
  have heither : Script.Constructible (.alternation either) := .binary .orElse ha hempty rfl
  have hgrouped : Script.Constructible (.group grouped) :=
    .unary (.wrap .nonCapturing) heither rfl
  have hquantified : Script.Constructible
      (.quantified (.build (.ofGroup grouped) (.exactly 2) .greedy)) :=
    .unary (.quantify (.exactly 2) .greedy) hgrouped rfl
  have htwice : twice.Constructible := .unary .toExpr hquantified rfl
  exact ⟨htwice, rfl, rfl, (possiblyZeroLength_iff_zero_mem_lengths htwice rfl).mp rfl⟩

/-! ## Safe to repeat although possibly empty -/

namespace Expr

/-- An assertion or a repetition of one or more.  They are reported as safe to repeat whether or
    not they may be empty. -/
inductive IsDeliberatelySafe : Expr → Prop where
  | assertion {e : Entity} (zeroWidth : e.isZeroWidth = true) : IsDeliberatelySafe (raw (.entity e))
  | atLeastOnce (base : Expr) (mode : Mode) (profile : Profile) :
      IsDeliberatelySafe (quantified base .atLeastOnce mode profile)

/-- A repetition of no times or a run of no atoms. -/
inductive IsVacuous : Expr → Prop where
  | noTimes (base : Expr) (mode : Mode) (profile : Profile) :
      IsVacuous (quantified base (.exactly 0) mode profile)
  | noAtoms (profile : Profile) : IsVacuous (raw (.compound ⟨[], profile⟩))

/-- A node of the tree explains that the expression is safe to repeat although it may be empty. -/
def HasExplanation (e : Expr) : Prop :=
  ∃ d, OccursIn d e ∧ (d.IsDeliberatelySafe ∨ d.IsVacuous)

namespace HasExplanation

variable {e part : Expr}

theorem of_isDeliberatelySafe (h : e.IsDeliberatelySafe) : e.HasExplanation := ⟨e, .self, Or.inl h⟩

theorem of_isVacuous (h : e.IsVacuous) : e.HasExplanation := ⟨e, .self, Or.inr h⟩

theorem of_mem_subparts (hpart : part ∈ e.subparts) (h : part.HasExplanation) :
    e.HasExplanation := by
  obtain ⟨d, hd, hexplains⟩ := h
  exact ⟨d, .inside hpart hd, hexplains⟩

end HasExplanation

end Expr

namespace Analysis

/-- Possibly empty, and reported as safe to repeat. -/
structure IsSafelyEmpty (a : Analysis) : Prop where
  possiblyZero : a.possiblyZeroLength = true
  safe : a.repetitionInvalidatesBounds = false

/-- A fixed run is safe to repeat only if it is not empty. -/
theorem not_isSafelyEmpty_fixed (length : ℕ) : ¬ (fixed length).IsSafelyEmpty := by
  intro h
  have hzero : (length == 0) = true := h.possiblyZero
  have hsafe : (length == 0) = false := h.safe
  rw [hzero] at hsafe
  exact nomatch hsafe

/-- A row has both facts only if each of its parts has them. -/
theorem IsSafelyEmpty.of_concatenation {parts : List Analysis}
    (h : (concatenation parts).IsSafelyEmpty) {a : Analysis} (ha : a ∈ parts) :
    a.IsSafelyEmpty where
  possiblyZero := by
    have hall := h.possiblyZero
    rw [possiblyZeroLength_concatenation, List.all_eq_true] at hall
    exact hall a ha
  safe := by
    have hnone := h.safe
    rw [repetitionInvalidatesBounds_concatenation, List.any_eq_false] at hnone
    exact Bool.eq_false_iff.mpr (hnone a ha)

end Analysis

/-- A repetition has both facts from its base, unless its quantifier gives them whatever the base
    is like. -/
theorem Quantifier.isSafelyEmpty_analysis {q : Quantifier} {base : Analysis}
    (h : (q.analysis base).IsSafelyEmpty) :
    q = .atLeastOnce ∨ q = .exactly 0 ∨ base.IsSafelyEmpty := by
  obtain ⟨hzero, hsafe⟩ := h
  cases q with
  | anyTimes => exact nomatch hsafe
  | atLeastOnce => exact Or.inl rfl
  | optional => exact nomatch hsafe
  | exactly count =>
      by_cases hcount : count = 0
      · exact Or.inr (Or.inl (congrArg exactly hcount))
      · have hbase : (count == 0 || base.possiblyZeroLength) = true := hzero
        rw [beq_eq_false_iff_ne.mpr hcount, Bool.false_or] at hbase
        exact Or.inr (Or.inr ⟨hbase, hsafe⟩)
  | range min max =>
      -- a repetition that may be left out is never safe, so the base may be empty
      have hsafe : (min == 0 || base.repetitionInvalidatesBounds) = false := hsafe
      obtain ⟨hmin, hbaseSafe⟩ := Bool.or_eq_false_iff.mp hsafe
      have hbase : (min == 0 || base.possiblyZeroLength) = true := hzero
      rw [hmin, Bool.false_or] at hbase
      exact Or.inr (Or.inr ⟨hbase, hbaseSafe⟩)

namespace Expr

theorem hasExplanation_of_atom {a : RawAtom} (h : a.profile.analysis.IsSafelyEmpty) :
    (raw (.atom a)).HasExplanation := by
  cases a with
  | entity e =>
      have hentity : e.analysis.IsSafelyEmpty := h
      unfold Entity.analysis at hentity
      split at hentity
      · rename_i hwidth
        exact .of_isDeliberatelySafe (.assertion hwidth)
      · exact nomatch hentity.possiblyZero
  | literal text => exact absurd h (Analysis.not_isSafelyEmpty_fixed text.length)

theorem hasExplanation_of_raw {r : Raw} (hr : r.Coherent)
    (h : r.profile.analysis.IsSafelyEmpty) : (raw r).HasExplanation := by
  cases r with
  | atom a => exact hasExplanation_of_atom h
  | compound c =>
      have hc : c.Coherent := hr
      have hrow : c.profile.analysis.IsSafelyEmpty := h
      rw [hc.analysis_eq] at hrow
      obtain ⟨atoms, profile⟩ := c
      cases atoms with
      | nil => exact .of_isVacuous (.noAtoms profile)
      | cons a atoms =>
          -- all atoms have the two facts, and the first one is as good as any
          have hfirst : a.profile.analysis.IsSafelyEmpty := hrow.of_concatenation (by simp)
          exact (hasExplanation_of_atom hfirst).of_mem_subparts (by simp [subparts])

theorem WellBuilt.hasExplanation {e : Expr} (h : e.WellBuilt) (hempty : e.analysis.IsSafelyEmpty) :
    e.HasExplanation := by
  induction h with
  | literal text => exact absurd hempty (Analysis.not_isSafelyEmpty_fixed text.length)
  | charLiteral c => exact nomatch hempty.possiblyZero
  | raw coherent => exact hasExplanation_of_raw coherent hempty
  | adopted pattern => exact nomatch hempty.safe
  | charClass _ => exact nomatch hempty.possiblyZero
  | @sequence components nonempty _ _ _ _ ih =>
      obtain ⟨c, hc⟩ := List.exists_mem_of_ne_nil components nonempty
      have hpart : c.analysis.IsSafelyEmpty :=
        Analysis.IsSafelyEmpty.of_concatenation hempty
          (List.mem_map_of_mem (List.mem_map_of_mem hc))
      exact (ih c hc hpart).of_mem_subparts hc
  | alternation _ _ _ _ _ => exact nomatch hempty.safe
  | @quantified base quantifier mode _ _ ih =>
      rcases Quantifier.isSafelyEmpty_analysis hempty with rfl | rfl | hbase
      · exact .of_isDeliberatelySafe (.atLeastOnce _ _ _)
      · exact .of_isVacuous (.noTimes _ _ _)
      · exact (ih hbase).of_mem_subparts (List.mem_singleton_self base.expr)
  | @group kind nested _ _ ih =>
      exact (ih hempty).of_mem_subparts (List.mem_singleton_self nested)

end Expr

/-- A constructible expression that may be empty and is reported as safe to repeat contains an
    assertion, a repetition of one or more, a repetition of exactly no times or a run of no
    atoms. -/
theorem safelyEmpty_hasExplanation {e : Expr} (h : e.Constructible)
    (hzero : e.analysis.possiblyZeroLength = true)
    (hsafe : e.analysis.repetitionInvalidatesBounds = false) :
    ∃ d : Expr, d.OccursIn e ∧ (d.IsDeliberatelySafe ∨ d.IsVacuous) :=
  h.wellBuilt.hasExplanation ⟨hzero, hsafe⟩

/-- A line begin before a digit that is never repeated, where each of the two is an explanation. -/
theorem safelyEmpty_hasExplanation_at_line_begin :
    let never : Quantified := .build (.ofCharClass .digit) (.exactly 0) .greedy
    let row : Expr :=
      (Sequence.pair (.ofRaw (.entity .lineBegin)) (.ofQuantified never)).value.toExpr
    row.Constructible ∧ row.analysis.possiblyZeroLength = true ∧
      row.analysis.repetitionInvalidatesBounds = false ∧
      ∃ d : Expr, d.OccursIn row ∧ (d.IsDeliberatelySafe ∨ d.IsVacuous) := by
  intro never row
  have hdigit : Script.Constructible (.charClass .digit) :=
    .leaf (.predefined (.shorthand .digit)) rfl
  have hnever : Script.Constructible (.quantified never) :=
    .unary (.quantify (.exactly 0) .greedy) hdigit rfl
  have hbegin : Script.Constructible (.entity .lineBegin) := .leaf (.entity .lineBegin) rfl
  have hsequence : Script.Constructible (.sequence
      (Sequence.pair (.ofRaw (.entity .lineBegin)) (.ofQuantified never)).value) :=
    .binary .followedBy hbegin hnever rfl
  have hrow : row.Constructible := .unary .toExpr hsequence rfl
  exact ⟨hrow, rfl, rfl, safelyEmpty_hasExplanation hrow rfl rfl⟩

/-- Repetitions of no times and runs of no atoms cannot be left out: a character that is never
    repeated and a compound of nothing have no other explanation. -/
theorem safelyEmpty_without_deliberate_safety :
    let never : Expr := (Quantified.build (.ofChar 'a') (.exactly 0) .greedy).toExpr
    let nothing : Expr := .raw (.compound (.ofParts []))
    (never.Constructible ∧ never.analysis.IsSafelyEmpty ∧
      ¬ ∃ d : Expr, d.OccursIn never ∧ d.IsDeliberatelySafe) ∧
    (nothing.Constructible ∧ nothing.analysis.IsSafelyEmpty ∧
      ¬ ∃ d : Expr, d.OccursIn nothing ∧ d.IsDeliberatelySafe) := by
  intro never nothing
  have ha : Script.Constructible (.charLiteral 'a') := .leaf (.charLiteral 'a') rfl
  have hquantified : Script.Constructible
      (.quantified (.build (.ofChar 'a') (.exactly 0) .greedy)) :=
    .unary (.quantify (.exactly 0) .greedy) ha rfl
  have hcompound : Script.Constructible (.compound (.ofParts [])) :=
    .nary .compound (List.forall_mem_nil _) rfl
  have hraw : Script.Constructible (.raw (.compound (.ofParts []))) :=
    .unary .toRaw hcompound rfl
  have hnever : ∀ d, Expr.OccursIn d never → ¬ d.IsDeliberatelySafe := by
    rw [Expr.forall_occursIn_iff]
    constructor
    · show ¬ (Expr.quantified (.charLiteral 'a') (.exactly 0) .greedy _).IsDeliberatelySafe
      intro h
      cases h
    · intro part hpart
      obtain rfl := List.mem_singleton.mp hpart
      rw [Expr.forall_occursIn_iff]
      constructor
      · intro h
        cases h
      · exact List.forall_mem_nil _
  have hnothing : ∀ d, Expr.OccursIn d nothing → ¬ d.IsDeliberatelySafe := by
    rw [Expr.forall_occursIn_iff]
    constructor
    · show ¬ (Expr.raw (.compound _)).IsDeliberatelySafe
      intro h
      cases h
    · exact List.forall_mem_nil _
  refine ⟨⟨.unary .toExpr hquantified rfl, ⟨rfl, rfl⟩, ?_⟩,
    .unary .toExpr hraw rfl, ⟨rfl, rfl⟩, ?_⟩
  · rintro ⟨d, hd, hsafe⟩
    exact hnever d hd hsafe
  · rintro ⟨d, hd, hsafe⟩
    exact hnothing d hd hsafe

end PatternAlgebra
