import PatternAlgebra.Proofs.Expr.Occurrences
import PatternAlgebra.Proofs.Script.Constructible
/-!
# Normal form

Whatever was done to build a value, the nodes of its tree are all of a simple shape: sequences and
alternations are flat and have no parts that need parentheses, no two raw items are left side by
side, a quantifier stands after a single unit and has counts that engines accept, and classes are
written in the one way that their operations keep to.

A node is in normal form or not by what its direct parts are, so the shape is said of one node at a
time and then of all nodes of a tree.  The constructions only ever look one level down as well: they
open an operand once, and this is enough because the operand was in normal form before.
-/

namespace PatternAlgebra

/-! ## Classes -/

namespace CharClass

/-- The classes that a class is put together from. -/
def parts : CharClass → List CharClass
  | complement inner => [inner]
  | union members => members
  | intersection members => members
  | _ => []

/-- Being a class that another is made of, itself included. -/
inductive OccursIn (j : CharClass) : CharClass → Prop where
  | self : OccursIn j j
  | inside {k part : CharClass} (hpart : part ∈ k.parts) (h : OccursIn j part) : OccursIn j k

/-- The class itself is in normal form, whatever its parts are like. -/
def IsNormal : CharClass → Prop
  | set members => members ≠ [] ∧ members.Pairwise (· < ·)
  | range first last => first ≤ last
  | complement inner => inner.hasOwnComplement = false
  | union members => 2 ≤ members.length ∧ ∀ k ∈ members, k.isUnion = false
  | intersection members => 2 ≤ members.length ∧ ∀ k ∈ members, k.isIntersection = false
  | _ => True

namespace WellBuilt

variable {j k : CharClass}

theorem isNormal (h : k.WellBuilt) : k.IsNormal := by
  cases h with
  | single c => trivial
  | set nonempty increasing => exact ⟨nonempty, increasing⟩
  | range ordered => exact ordered
  | shorthand kind isNegated => trivial
  | property name isNegated => trivial
  | complement needed _ => exact needed
  | union several flat _ => exact ⟨several, flat⟩
  | intersection several flat _ => exact ⟨several, flat⟩

theorem of_mem_parts {part : CharClass} (h : k.WellBuilt) (hpart : part ∈ k.parts) :
    part.WellBuilt := by
  cases h with
  | complement _ inner_wellBuilt =>
      obtain rfl := List.mem_singleton.mp hpart
      exact inner_wellBuilt
  | union _ _ members_wellBuilt => exact members_wellBuilt part hpart
  | intersection _ _ members_wellBuilt => exact members_wellBuilt part hpart
  | _ => exact nomatch hpart

theorem of_occursIn (hj : j.OccursIn k) (h : k.WellBuilt) : j.WellBuilt := by
  induction hj with
  | self => exact h
  | inside hpart _ ih => exact ih (h.of_mem_parts hpart)

end WellBuilt

end CharClass

/-! ## Expressions -/

namespace Expr

/-- Whether the node is text from outside. -/
def isAdopted : Expr → Bool
  | adopted _ => true
  | _ => false

/-- Whether the node is a run of atoms. -/
def isCompound : Expr → Bool
  | raw (.compound _) => true
  | _ => false

/-- What a quantifier may stand after. -/
inductive TakesQuantifier : Expr → Prop where
  | charLiteral (c : Char) : TakesQuantifier (charLiteral c)
  | entity (e : Entity) : TakesQuantifier (raw (.entity e))
  | charClass (k : CharClass) : TakesQuantifier (charClass k)
  | group (kind : GroupKind) (nested : Expr) (profile : Profile) :
      TakesQuantifier (group kind nested profile)

/-- The node itself is in normal form, whatever its parts are like. -/
def IsNormal : Expr → Prop
  | raw r => ∀ part ∈ (raw r).subparts, part.isCompound = false
  | charClass k => ∀ j, CharClass.OccursIn j k → j.IsNormal
  | sequence components _ =>
    components ≠ [] ∧
      (∀ e ∈ components, e.isSequence = false ∧ e.isAlternation = false ∧ e.isAdopted = false) ∧
      components.IsChain Separated
  | alternation alternatives _ =>
    2 ≤ alternatives.length ∧
      ∀ e ∈ alternatives, e.isAlternation = false ∧ e.isAdopted = false
  | quantified base quantifier _ _ => base.TakesQuantifier ∧ quantifier.WithinLimits
  | _ => True

variable {e : Expr}

theorem takesQuantifier_of_isQuantifiable (h : e.isQuantifiable = true) : e.TakesQuantifier := by
  cases e with
  | charLiteral c => exact .charLiteral c
  | charClass k => exact .charClass k
  | group kind nested profile => exact .group kind nested profile
  | raw r =>
      cases r with
      | atom a =>
          cases a with
          | entity e => exact .entity e
          | literal text => exact nomatch h
      | compound c => exact nomatch h
  | _ => exact nomatch h

theorem isAdopted_of_isAlternative (h : e.isAlternative = true) : e.isAdopted = false := by
  cases e with
  | adopted pattern => exact nomatch h
  | _ => rfl

theorem isAlternation_of_isSequenceable (h : e.isSequenceable = true) :
    e.isAlternation = false := by
  cases e with
  | alternation alternatives profile => exact nomatch h
  | _ => rfl

/-- The parts of a compound are atoms. -/
theorem isCompound_of_mem_subparts {r : Raw} {part : Expr} (h : part ∈ (raw r).subparts) :
    part.isCompound = false := by
  cases r with
  | atom a => exact nomatch h
  | compound c =>
      obtain ⟨a, -, rfl⟩ := List.mem_map.mp h
      rfl

theorem WellBuilt.isNormal (h : e.WellBuilt) : e.IsNormal := by
  cases h with
  | literal text => trivial
  | charLiteral c => trivial
  | raw _ =>
      intro part hpart
      exact isCompound_of_mem_subparts hpart
  | adopted pattern => trivial
  | charClass class_wellBuilt =>
      intro j hj
      exact (class_wellBuilt.of_occursIn hj).isNormal
  | sequence nonempty sequenceable flat separated _ =>
      refine ⟨nonempty, ?_, separated⟩
      intro c hc
      have hplace := sequenceable c hc
      exact ⟨flat c hc, isAlternation_of_isSequenceable hplace,
        isAdopted_of_isAlternative (isAlternative_of_isSequenceable hplace)⟩
  | alternation several alternative flat _ =>
      refine ⟨several, ?_⟩
      intro a ha
      exact ⟨flat a ha, isAdopted_of_isAlternative (alternative a ha)⟩
  | @quantified base quantifier mode checked _ =>
      exact ⟨takesQuantifier_of_isQuantifiable base.allowed, Quantifier.check_eq_ok_iff.mp checked⟩
  | group _ _ => trivial

end Expr

/-! ## Values of every type -/

namespace Node

/-- The tree of what a value consists of has the expression as a node. -/
def Content.Contains : Content → Expr → Prop
  | expr e, d => d.OccursIn e
  | compound c, d => d.OccursIn (.raw (.compound c))

theorem WellBuilt.of_contains {n : Node} (h : n.WellBuilt) {d : Expr}
    (hd : n.content.Contains d) : d.WellBuilt := by
  unfold WellBuilt at h
  cases hcontent : n.content with
  | expr e =>
      rw [hcontent] at h hd
      exact Expr.WellBuilt.of_occursIn hd h
  | compound c =>
      rw [hcontent] at h hd
      exact Expr.WellBuilt.of_occursIn hd (.raw h)

end Node

/-- **Everything that can be built is in normal form at every depth.**  This is so for values of
    every type, and for every node that their trees have. -/
theorem constructible_isNormal {n : Node} (h : Script.Constructible n) {d : Expr}
    (hd : n.content.Contains d) : d.IsNormal :=
  (h.wellBuilt.of_contains hd).isNormal

/-- A run of raw items across the end of a nested sequence, before a repeated class that merged
    the members of two others. -/
theorem constructible_isNormal_of_nested :
    let vowels : CharClass := (CharClass.single 'e').unite (.single 'a')
    let repeated : Quantified := .build (.ofCharClass vowels) (.range 2 (some 3)) .greedy
    let inner : Sequence := (Sequence.pair (.ofChar 'b') (.ofQuantified repeated)).value
    let whole : Sequence := (Sequence.pair (.ofLiteral "a") (.ofSequence inner)).value
    Script.Constructible (.sequence whole) ∧ whole.components.length = 2 ∧
      whole.toExpr.IsNormal ∧ repeated.toExpr.IsNormal ∧ (Expr.charClass vowels).IsNormal := by
  intro vowels repeated inner whole
  have he : Script.Constructible (.charClass (.single 'e')) := .leaf (.classOf 'e') rfl
  have ha : Script.Constructible (.charClass (.single 'a')) := .leaf (.classOf 'a') rfl
  have hvowels : Script.Constructible (.charClass vowels) := .binary .unite he ha rfl
  have hrepeated : Script.Constructible (.quantified repeated) :=
    .unary (.quantify (.range 2 (some 3)) .greedy) hvowels rfl
  have hb : Script.Constructible (.charLiteral 'b') := .leaf (.charLiteral 'b') rfl
  have hinner : Script.Constructible (.sequence inner) := .binary .followedBy hb hrepeated rfl
  have hliteral : Script.Constructible (.literal "a") := .leaf (.literal "a") rfl
  have hwhole : Script.Constructible (.sequence whole) :=
    .binary .followedBy hliteral hinner rfl
  have hlast : repeated.toExpr ∈ whole.toExpr.subparts := .tail _ (.head _)
  have hclass : Expr.charClass vowels ∈ repeated.toExpr.subparts := .head _
  exact ⟨hwhole, rfl, constructible_isNormal hwhole .self,
    constructible_isNormal hwhole (.inside hlast .self),
    constructible_isNormal hwhole (.inside hlast (.inside hclass .self))⟩

end PatternAlgebra
