import Mathlib.Data.Set.NAry
import PatternAlgebra.Proofs.Analysis.Concatenation
import PatternAlgebra.Proofs.Script.Constructible
/-!
# The bounded length is the greatest length

How many characters an expression can consume is a set of numbers, given by its structure: parts
in a row add up, alternatives are joined, and a repetition adds up as many copies as its
quantifier allows.  The bounded length that the analysis keeps is never below one of these
numbers, and unless something looks around, it is one of them.

The analysis is computed from stored profiles, node by node and with a ceiling, while the lengths
do not know of either.  So the proof goes over well-built expressions, and each case is a statement
about one operation on bounds and the matching operation on sets.
-/

namespace PatternAlgebra

/-! ## Lengths -/

/-- The sums of one number from each set. -/
def sumset : List (Set ℕ) → Set ℕ
  | [] => {0}
  | s :: ss => Set.image2 (· + ·) s (sumset ss)

/-- Whether a number of repetitions is allowed. -/
def Quantifier.Allows : Quantifier → ℕ → Prop
  | anyTimes, _ => True
  | atLeastOnce, times => 1 ≤ times
  | optional, times => times ≤ 1
  | exactly count, times => times = count
  | range min none, times => min ≤ times
  | range min (some max), times => min ≤ times ∧ times ≤ max

/-- The lengths of all allowed numbers of copies in a row. -/
def Quantifier.lengths (q : Quantifier) (base : Set ℕ) : Set ℕ :=
  {n | ∃ times, q.Allows times ∧ n ∈ sumset (List.replicate times base)}

/-- Whether a group asserts something about the text around a position. -/
def GroupKind.isLookAround : GroupKind → Bool
  | positiveLookAhead => true
  | negativeLookAhead => true
  | positiveLookBehind => true
  | negativeLookBehind => true
  | _ => false

/-- The lengths of an atom. -/
def RawAtom.lengths : RawAtom → Set ℕ
  | entity e => if e.isZeroWidth then {0} else {1}
  | literal text => {text.length}

/-- The lengths of a raw node. -/
def Raw.lengths : Raw → Set ℕ
  | atom a => a.lengths
  | compound c => sumset (c.atoms.map RawAtom.lengths)

namespace Expr

mutual

/-- How many characters an expression can consume. -/
def lengths : Expr → Set ℕ
  | literal text => {text.length}
  | charLiteral _ => {1}
  | raw r => r.lengths
  | adopted _ => Set.univ
  | charClass _ => {1}
  | sequence components _ => lengthsInRow components
  | alternation alternatives _ => lengthsOfAny alternatives
  | quantified base quantifier _ _ => quantifier.lengths (lengths base)
  | group kind nested _ => if kind.isLookAround then {0} else lengths nested

/-- How many characters expressions can consume one after another. -/
def lengthsInRow : List Expr → Set ℕ
  | [] => {0}
  | e :: es => Set.image2 (· + ·) (lengths e) (lengthsInRow es)

/-- How many characters one of some expressions can consume. -/
def lengthsOfAny : List Expr → Set ℕ
  | [] => ∅
  | e :: es => lengths e ∪ lengthsOfAny es

end

mutual

/-- Whether a group in the expression looks around. -/
def hasLookAround : Expr → Bool
  | sequence components _ => anyLookAround components
  | alternation alternatives _ => anyLookAround alternatives
  | quantified base _ _ _ => hasLookAround base
  | group kind nested _ => kind.isLookAround || hasLookAround nested
  | _ => false

/-- Whether a group in one of the expressions looks around. -/
def anyLookAround : List Expr → Bool
  | [] => false
  | e :: es => hasLookAround e || anyLookAround es

end

theorem lengthsInRow_eq_sumset (es : List Expr) : lengthsInRow es = sumset (es.map lengths) := by
  induction es with
  | nil => rfl
  | cons e es ih => rw [lengthsInRow, List.map_cons, sumset, ih]

theorem mem_lengthsOfAny {n : ℕ} {es : List Expr} :
    n ∈ lengthsOfAny es ↔ ∃ e ∈ es, n ∈ lengths e := by
  induction es with
  | nil => simp [lengthsOfAny]
  | cons e es ih =>
      rw [lengthsOfAny, Set.mem_union, ih]
      simp

theorem hasLookAround_of_mem {e : Expr} {es : List Expr} (h : anyLookAround es = false)
    (he : e ∈ es) : e.hasLookAround = false := by
  induction es with
  | nil => exact nomatch he
  | cons d ds ih =>
      rw [anyLookAround, Bool.or_eq_false_iff] at h
      rcases List.mem_cons.mp he with rfl | he
      · exact h.1
      · exact ih h.2 he

end Expr

/-! ## Bounds and sets of lengths -/

/-- A bound, if there is one, is within the ceiling and below no length; it is a length itself
    where that is asked for. -/
structure Measures (bound : Option Nat) (lengths : Set ℕ) (isExact : Prop) : Prop where
  within : ∀ b, bound = some b → b ≤ maxBoundedLength
  above : ∀ b, bound = some b → ∀ n ∈ lengths, n ≤ b
  attained : isExact → ∀ b, bound = some b → b ∈ lengths

namespace Measures

variable {bound bound' : Option Nat} {s t : Set ℕ} {isExact isExact' : Prop}

theorem none : Measures none s isExact where
  within := fun _ hb => nomatch hb
  above := fun _ hb => nomatch hb
  attained := fun _ _ hb => nomatch hb

theorem mono (h : Measures bound s isExact) (himp : isExact' → isExact) :
    Measures bound s isExact' :=
  ⟨h.within, h.above, fun hexact => h.attained (himp hexact)⟩

theorem clamped_singleton (n : ℕ) : Measures (clampBound (some n)) {n} isExact where
  within := fun b hb => (clampBound_eq_some_iff.mp hb).2
  above := by
    intro b hb m hm
    obtain rfl := Option.some.inj (clampBound_eq_some_iff.mp hb).1
    exact Nat.le_of_eq (Set.mem_singleton_iff.mp hm)
  attained := by
    intro _ b hb
    obtain rfl := Option.some.inj (clampBound_eq_some_iff.mp hb).1
    exact Set.mem_singleton n

theorem singleton {n : ℕ} (hn : n ≤ maxBoundedLength) : Measures (some n) {n} isExact := by
  rw [← clampBound_of_le hn]
  exact clamped_singleton n

theorem add (h : Measures bound s isExact) (h' : Measures bound' t isExact) :
    Measures (addBounds bound bound') (Set.image2 (· + ·) s t) isExact where
  within := by
    intro b hb
    obtain ⟨_, _, _, _, _, hle⟩ := addBounds_eq_some_iff.mp hb
    exact hle
  above := by
    intro b hb n hn
    obtain ⟨i, j, hi, hj, rfl, -⟩ := addBounds_eq_some_iff.mp hb
    obtain ⟨m, hm, k, hk, rfl⟩ := hn
    exact Nat.add_le_add (h.above i hi m hm) (h'.above j hj k hk)
  attained := by
    intro hexact b hb
    obtain ⟨i, j, hi, hj, rfl, -⟩ := addBounds_eq_some_iff.mp hb
    exact Set.mem_image2_of_mem (h.attained hexact i hi) (h'.attained hexact j hj)

/-- Parts in a row, each of them measured by its analysis. -/
theorem concatenation {α : Type} {parts : List α} {analysis : α → Analysis}
    {lengths : α → Set ℕ}
    (h : ∀ a ∈ parts, Measures (analysis a).boundedLength (lengths a) isExact) :
    Measures (Analysis.concatenation (parts.map analysis)).boundedLength
      (sumset (parts.map lengths)) isExact := by
  induction parts with
  | nil =>
      exact singleton (Nat.zero_le _)
  | cons a parts ih =>
      rw [List.map_cons, List.map_cons, sumset, Analysis.concatenation_cons]
      refine add ?_ (ih fun b hb => h b (by simp [hb]))
      -- a part alone is clamped, which its bound is already
      have hself : addBounds (some 0) (analysis a).boundedLength = (analysis a).boundedLength := by
        rw [zero_addBounds]
        ext b
        rw [clampBound_eq_some_iff]
        exact ⟨fun hb => hb.1, fun hb => ⟨hb, (h a (by simp)).within b hb⟩⟩
      show Measures (addBounds (some 0) (analysis a).boundedLength) _ _
      rw [hself]
      exact h a (by simp)

end Measures

/-! ## Repetitions -/

/-- So many copies together are no longer than so many times the bound. -/
theorem le_of_mem_sumset_replicate {s : Set ℕ} {b : ℕ} (hs : ∀ n ∈ s, n ≤ b) {times n : ℕ}
    (hn : n ∈ sumset (List.replicate times s)) : n ≤ b * times := by
  induction times generalizing n with
  | zero => exact Nat.le_of_eq hn
  | succ times ih =>
      rw [List.replicate_succ, sumset] at hn
      obtain ⟨i, hi, j, hj, rfl⟩ := hn
      have hfirst := hs i hi
      have hrest := ih hj
      calc i + j ≤ b + b * times := Nat.add_le_add hfirst hrest
        _ = b * (times + 1) := by rw [Nat.mul_succ, Nat.add_comm]

/-- The greatest length of one copy gives the greatest length of many. -/
theorem mul_mem_sumset_replicate {s : Set ℕ} {b : ℕ} (hb : b ∈ s) (times : ℕ) :
    b * times ∈ sumset (List.replicate times s) := by
  induction times with
  | zero => exact rfl
  | succ times ih =>
      rw [List.replicate_succ, sumset, Nat.mul_succ, Nat.add_comm]
      exact Set.mem_image2_of_mem hb ih

/-- A product of a bound and a number of copies, as long as no more copies are allowed, and so
    many are. -/
theorem Measures.mul {bound : Option Nat} {s : Set ℕ} {isExact : Prop}
    (h : Measures bound s isExact) {q : Quantifier} {most : ℕ}
    (hmost : ∀ times, q.Allows times → times ≤ most) (hallowed : q.Allows most) :
    Measures (mulBound bound most) (q.lengths s) isExact := by
  have hfactor : ∀ b, mulBound bound most = some b →
      ∃ c, bound = some c ∧ b = c * most ∧ b ≤ maxBoundedLength := by
    intro b hb
    obtain ⟨c, hc, hproduct, hle⟩ := mulBound_eq_some_iff.mp hb
    exact ⟨c, hc, hproduct.symm, hle⟩
  constructor
  case within =>
    intro b hb
    obtain ⟨_, _, _, hle⟩ := hfactor b hb
    exact hle
  case above =>
    intro b hb n hn
    obtain ⟨c, hc, rfl, -⟩ := hfactor b hb
    obtain ⟨times, htimes, hn⟩ := hn
    calc n ≤ c * times := le_of_mem_sumset_replicate (h.above c hc) hn
      _ ≤ c * most := Nat.mul_le_mul_left c (hmost times htimes)
  case attained =>
    intro hexact b hb
    obtain ⟨c, hc, rfl, -⟩ := hfactor b hb
    exact ⟨most, hallowed, mul_mem_sumset_replicate (h.attained hexact c hc) most⟩

theorem Quantifier.le_of_check_range {min max : ℕ} (h : (range min (some max)).check = .ok ()) :
    min ≤ max :=
  (check_eq_ok_iff.mp h).2.2

theorem Measures.quantified {q : Quantifier} (hcheck : q.check = .ok ()) {base : Analysis}
    {s : Set ℕ} {isExact : Prop} (h : Measures base.boundedLength s isExact) :
    Measures (q.analysis base).boundedLength (q.lengths s) isExact := by
  cases q with
  | anyTimes => exact .none
  | atLeastOnce => exact .none
  | optional =>
      -- the empty text comes in, and it is never longer than the base
      constructor
      case within => exact h.within
      case above =>
        intro b hb n hn
        obtain ⟨times, htimes, hn⟩ := hn
        calc n ≤ b * times := le_of_mem_sumset_replicate (h.above b hb) hn
          _ ≤ b * 1 := Nat.mul_le_mul_left b htimes
          _ = b := Nat.mul_one b
      case attained =>
        intro hexact b hb
        have hone := mul_mem_sumset_replicate (h.attained hexact b hb) 1
        rw [Nat.mul_one] at hone
        exact ⟨1, Nat.le_refl 1, hone⟩
  | exactly count =>
      show Measures (if base.repetitionInvalidatesBounds then _ else _) _ _
      split
      · exact .none
      · exact h.mul (fun times htimes => Nat.le_of_eq htimes) rfl
  | range min max =>
      show Measures (if base.repetitionInvalidatesBounds then _ else _) _ _
      split
      · exact .none
      · cases max with
        | none => exact .none
        | some max =>
            have hordered := Quantifier.le_of_check_range hcheck
            exact h.mul (fun times htimes => htimes.2) ⟨hordered, Nat.le_refl max⟩

/-! ## Alternatives -/

theorem maxBounds_eq_some_iff {a b : Option Nat} {n : ℕ} :
    maxBounds a b = some n ↔ ∃ i j, a = some i ∧ b = some j ∧ max i j = n := by
  cases a with
  | none => simp [maxBounds]
  | some i =>
      cases b with
      | none => simp [maxBounds]
      | some j => simp [maxBounds]

/-- What the bound of some alternatives says of each of them: none has a greater bound, and the
    bound is the one that was started from or that of an alternative. -/
theorem foldl_maxBounds_eq_some {alternatives : List Analysis} {start : Option Nat} {b : ℕ}
    (h : alternatives.foldl (fun bound a => maxBounds bound a.boundedLength) start = some b) :
    ∃ m, start = some m ∧ m ≤ b ∧
      (∀ a ∈ alternatives, ∃ c, a.boundedLength = some c ∧ c ≤ b) ∧
      (b = m ∨ ∃ a ∈ alternatives, a.boundedLength = some b) := by
  induction alternatives generalizing start with
  | nil => exact ⟨b, h, Nat.le_refl b, (fun a ha => nomatch ha), Or.inl rfl⟩
  | cons a alternatives ih =>
      obtain ⟨k, hk, hkb, hall, hfrom⟩ := ih h
      have hk : maxBounds start a.boundedLength = some k := hk
      obtain ⟨m, c, hstart, hbound, hmax⟩ := maxBounds_eq_some_iff.mp hk
      refine ⟨m, hstart, by omega, ?_, ?_⟩
      · intro d hd
        rcases List.mem_cons.mp hd with rfl | hd
        · exact ⟨c, hbound, by omega⟩
        · exact hall d hd
      · rcases hfrom with rfl | ⟨d, hd, hdb⟩
        · by_cases hmc : c ≤ m
          · exact Or.inl (by omega)
          · refine Or.inr ⟨a, by simp, ?_⟩
            rw [hbound]
            exact congrArg some (by omega)
        · exact Or.inr ⟨d, by simp [hd], hdb⟩

/-- The bound of at least one alternative is the greatest of the bounds. -/
theorem boundedLength_alternation_eq_some {alternatives : List Analysis}
    (hne : alternatives ≠ []) {b : ℕ}
    (h : (Analysis.alternation alternatives).boundedLength = some b) :
    (∀ a ∈ alternatives, ∃ c, a.boundedLength = some c ∧ c ≤ b) ∧
      ∃ a ∈ alternatives, a.boundedLength = some b := by
  obtain ⟨m, hm, hmb, hall, hfrom⟩ := foldl_maxBounds_eq_some h
  obtain rfl := Option.some.inj hm
  refine ⟨hall, ?_⟩
  rcases hfrom with rfl | hsome
  · -- a bound of zero is not only where the maximum starts, but that of every alternative
    obtain ⟨a, ha⟩ := List.exists_mem_of_ne_nil alternatives hne
    obtain ⟨c, hc, hle⟩ := hall a ha
    obtain rfl : c = 0 := by omega
    exact ⟨a, ha, hc⟩
  · exact hsome

/-! ## Expressions -/

theorem RawAtom.measures (a : RawAtom) (isExact : Prop) :
    Measures a.profile.analysis.boundedLength a.lengths isExact := by
  cases a with
  | entity e =>
      show Measures e.analysis.boundedLength (if e.isZeroWidth then {0} else {1}) isExact
      unfold Entity.analysis
      split
      · exact .singleton (Nat.zero_le _)
      · exact .singleton (by decide)
  | literal text => exact .clamped_singleton text.length

theorem Raw.Coherent.measures {r : Raw} (h : r.Coherent) (isExact : Prop) :
    Measures r.profile.analysis.boundedLength r.lengths isExact := by
  cases r with
  | atom a => exact a.measures isExact
  | compound c =>
      have hc : c.Coherent := h
      show Measures c.profile.analysis.boundedLength _ _
      rw [hc.analysis_eq]
      show Measures (Analysis.concatenation ((c.atoms.map RawAtom.profile).map _)).boundedLength _ _
      rw [List.map_map]
      exact .concatenation fun a _ => a.measures isExact

/-- The bound of a well-built expression measures its lengths, exactly unless it looks around. -/
theorem Expr.WellBuilt.measures {e : Expr} (h : e.WellBuilt) :
    Measures e.analysis.boundedLength e.lengths (e.hasLookAround = false) := by
  induction h with
  | literal text => exact .clamped_singleton text.length
  | charLiteral c => exact .singleton (by decide)
  | raw coherent => exact coherent.measures _
  | adopted pattern => exact .none
  | charClass _ => exact .singleton (by decide)
  | @sequence components _ _ _ _ _ ih =>
      show Measures (Analysis.concatenation ((components.map Expr.profile).map _)).boundedLength
        (lengthsInRow components) (anyLookAround components = false)
      rw [lengthsInRow_eq_sumset, List.map_map]
      exact .concatenation fun e he => (ih e he).mono fun hnone => hasLookAround_of_mem hnone he
  | @alternation alternatives hsev _ _ _ ih =>
      have hne : alternatives.map Expr.analysis ≠ [] := by
        apply List.ne_nil_of_length_pos
        rw [List.length_map]
        omega
      have hmax : ∀ b, (Analysis.alternation (alternatives.map Expr.analysis)).boundedLength
          = some b → (∀ e ∈ alternatives, ∃ c, e.analysis.boundedLength = some c ∧ c ≤ b) ∧
            ∃ e ∈ alternatives, e.analysis.boundedLength = some b := by
        intro b hb
        simpa using boundedLength_alternation_eq_some hne hb
      show Measures (Analysis.alternation ((alternatives.map Expr.profile).map _)).boundedLength
        (lengthsOfAny alternatives) (anyLookAround alternatives = false)
      rw [List.map_map]
      constructor
      case within =>
        intro b hb
        obtain ⟨-, e, he, hbound⟩ := hmax b hb
        exact (ih e he).within b hbound
      case above =>
        intro b hb n hn
        obtain ⟨e, he, hn⟩ := mem_lengthsOfAny.mp hn
        obtain ⟨c, hc, hle⟩ := (hmax b hb).1 e he
        exact Nat.le_trans ((ih e he).above c hc n hn) hle
      case attained =>
        intro hnone b hb
        obtain ⟨-, e, he, hbound⟩ := hmax b hb
        exact mem_lengthsOfAny.mpr
          ⟨e, he, (ih e he).attained (hasLookAround_of_mem hnone he) b hbound⟩
  | quantified mode checked _ ih => exact ih.quantified checked
  | @group kind nested _ _ ih =>
      show Measures nested.analysis.boundedLength
        (if kind.isLookAround then {0} else nested.lengths)
        ((kind.isLookAround || nested.hasLookAround) = false)
      cases hkind : kind.isLookAround with
      | true =>
          -- an assertion consumes nothing, whatever is asserted
          constructor
          case within => exact ih.within
          case above =>
            intro b _ n hn
            rw [Set.mem_singleton_iff.mp hn]
            exact Nat.zero_le b
          case attained => exact fun hnone => nomatch hnone
      | false => exact ih

/-- The bounded length of a constructible expression, if it has one, is within the ceiling and
    below no length that the expression can consume; it is such a length itself if no group in
    the expression looks around. -/
theorem boundedLength_isGreatest {e : Expr} (h : e.Constructible) {b : ℕ}
    (hb : e.analysis.boundedLength = some b) :
    b ≤ maxBoundedLength ∧ (∀ n ∈ e.lengths, n ≤ b) ∧
      (e.hasLookAround = false → b ∈ e.lengths) := by
  have hmeasures := h.wellBuilt.measures
  exact ⟨hmeasures.within b hb, hmeasures.above b hb, fun hnone => hmeasures.attained hnone b hb⟩

/-- One to three digits, where the bound is three and the lengths are one, two and three. -/
theorem boundedLength_isGreatest_of_digits :
    let digits : Expr := (Quantified.build (.ofCharClass .digit) (.range 1 (some 3)) .greedy).toExpr
    digits.Constructible ∧ digits.analysis.boundedLength = some 3 ∧
      (∀ n ∈ digits.lengths, n ≤ 3) ∧ 3 ∈ digits.lengths := by
  intro digits
  have hdigit : Script.Constructible (.charClass .digit) :=
    .leaf (.predefined (.shorthand .digit)) rfl
  have hquantified : Script.Constructible
      (.quantified (.build (.ofCharClass .digit) (.range 1 (some 3)) .greedy)) :=
    .unary (.quantify (.range 1 (some 3)) .greedy) hdigit rfl
  have hdigits : digits.Constructible := .unary .toExpr hquantified rfl
  obtain ⟨-, habove, hattained⟩ := boundedLength_isGreatest hdigits (b := 3) rfl
  exact ⟨hdigits, rfl, habove, hattained rfl⟩

end PatternAlgebra
