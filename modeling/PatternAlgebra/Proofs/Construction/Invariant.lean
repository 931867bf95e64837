import PatternAlgebra.Build.Alternation
import PatternAlgebra.Build.Group
import PatternAlgebra.Build.Quantified
import PatternAlgebra.Build.Sequence
import PatternAlgebra.Proofs.Analysis.Concatenation
import PatternAlgebra.Proofs.Rope.Writing
/-!
# What every construction keeps true

An expression is well built when it is in normal form at every depth and every stored profile is
the one that its parts have.  The constructions only make well-built expressions, so whatever is
to be shown of all of them is shown by induction over this predicate, one case for each kind of
node.

The profile of a compound is the only one that is stored before its parts are put in their final
shape: it is computed from parts that may be compounds, while the atoms of those are listed in
place.  The two ways agree on text and analysis, and no more than that can be said, since the
ropes are put together differently.

A text is more than what is stored of it.  `render` is the pattern that an expression stands for, in
full; it is written out by `checkedRender` exactly if there is room for it.
-/

namespace PatternAlgebra

theorem ne_nil_of_several {α : Type} {xs : List α} (h : 2 ≤ xs.length) : xs ≠ [] :=
  List.ne_nil_of_length_pos (Nat.lt_of_lt_of_le Nat.two_pos h)

/-! ## Classes -/

namespace CharClass

/-- Whether the complement of the class is a class of its own kind. -/
def hasOwnComplement : CharClass → Bool
  | shorthand _ _ => true
  | property _ _ => true
  | complement _ => true
  | _ => false

/-- Whether the class is a union of others. -/
def isUnion : CharClass → Bool
  | union _ => true
  | _ => false

/-- Whether the class is an intersection of others. -/
def isIntersection : CharClass → Bool
  | intersection _ => true
  | _ => false

/-- A class in normal form. -/
inductive WellBuilt : CharClass → Prop where
  | single (c : Char) : WellBuilt (single c)
  | set {members : List Char} (nonempty : members ≠ [])
      (increasing : members.Pairwise (· < ·)) : WellBuilt (set members)
  | range {first last : Char} (ordered : first ≤ last) : WellBuilt (range first last)
  | shorthand (kind : Shorthand) (isNegated : Bool) : WellBuilt (shorthand kind isNegated)
  | property (name : String) (isNegated : Bool) : WellBuilt (property name isNegated)
  | complement {inner : CharClass} (needed : inner.hasOwnComplement = false)
      (inner_wellBuilt : WellBuilt inner) : WellBuilt (complement inner)
  | union {members : List CharClass} (several : 2 ≤ members.length)
      (flat : ∀ k ∈ members, k.isUnion = false)
      (members_wellBuilt : ∀ k ∈ members, WellBuilt k) : WellBuilt (union members)
  | intersection {members : List CharClass} (several : 2 ≤ members.length)
      (flat : ∀ k ∈ members, k.isIntersection = false)
      (members_wellBuilt : ∀ k ∈ members, WellBuilt k) : WellBuilt (intersection members)

end CharClass

/-! ## Profiles -/

/-- A stored profile says the same as one computed afresh. -/
structure Profile.Agrees (stored fresh : Profile) : Prop where
  wellSized : stored.text.WellSized
  contents_eq : stored.text.contents = fresh.text.contents
  analysis_eq : stored.analysis = fresh.analysis

/-- The stored profile of the compound is that of its atoms in a row. -/
def Compound.Coherent (c : Compound) : Prop :=
  c.profile.Agrees (.concatenation (c.atoms.map RawAtom.profile))

/-- A raw node that is a coherent compound or no compound. -/
def Raw.Coherent : Raw → Prop
  | atom _ => True
  | compound c => c.Coherent

/-! ## Expressions -/

namespace Expr

/-- Whether the node is a sequence. -/
def isSequence : Expr → Bool
  | sequence _ _ => true
  | _ => false

/-- Whether the node is an alternation. -/
def isAlternation : Expr → Bool
  | alternation _ _ => true
  | _ => false

/-- Neighbours of which at most one is raw. -/
def Separated (a b : Expr) : Prop := a.isRawLike = false ∨ b.isRawLike = false

/-- An expression in normal form, with the profiles of its parts, at every depth. -/
inductive WellBuilt : Expr → Prop where
  | literal (text : String) : WellBuilt (literal text)
  | charLiteral (c : Char) : WellBuilt (charLiteral c)
  | raw {r : Raw} (coherent : r.Coherent) : WellBuilt (raw r)
  | adopted (pattern : String) : WellBuilt (adopted pattern)
  | charClass {k : CharClass} (class_wellBuilt : k.WellBuilt) : WellBuilt (charClass k)
  | sequence {components : List Expr} (nonempty : components ≠ [])
      (sequenceable : ∀ e ∈ components, e.isSequenceable = true)
      (flat : ∀ e ∈ components, e.isSequence = false)
      (separated : components.IsChain Separated)
      (components_wellBuilt : ∀ e ∈ components, WellBuilt e) :
      WellBuilt (Sequence.ofComponents components).toExpr
  | alternation {alternatives : List Expr} (several : 2 ≤ alternatives.length)
      (alternative : ∀ e ∈ alternatives, e.isAlternative = true)
      (flat : ∀ e ∈ alternatives, e.isAlternation = false)
      (alternatives_wellBuilt : ∀ e ∈ alternatives, WellBuilt e) :
      WellBuilt (alternation alternatives (.alternation (alternatives.map Expr.profile)))
  | quantified {base : Quantifiable} {quantifier : Quantifier} (mode : Mode)
      (checked : quantifier.check = .ok ()) (base_wellBuilt : WellBuilt base.expr) :
      WellBuilt (Quantified.build base quantifier mode).toExpr
  | group {kind : GroupKind} {nested : Expr}
      (bounded : kind.isLookBehind = true → nested.analysis.boundedLength ≠ none)
      (nested_wellBuilt : WellBuilt nested) : WellBuilt (Group.build kind nested).toExpr

end Expr

/-! ## The text of a profile -/

namespace Profile

/-- Appending to a rope one text after another. -/
theorem contents_foldl_append (parts : List Profile) (start : Rope) :
    (parts.foldl (fun text part => text ++ part.text) start).contents
      = start.contents ++ parts.flatMap (·.text.contents) := by
  induction parts generalizing start with
  | nil => simp
  | cons part parts ih =>
      rw [List.foldl_cons, ih, Rope.contents_append, List.flatMap_cons, List.append_assoc]

theorem contents_concatenation (parts : List Profile) :
    (concatenation parts).text.contents = parts.flatMap (·.text.contents) :=
  contents_foldl_append parts .empty

theorem wellSized_concatenation {parts : List Profile}
    (h : ∀ part ∈ parts, part.text.WellSized) : (concatenation parts).text.WellSized := by
  suffices hfold : ∀ start : Rope, start.WellSized →
      (parts.foldl (fun text part => text ++ part.text) start).WellSized from
    hfold _ Rope.WellFormed.empty.wellSized
  induction parts with
  | nil => exact fun start hstart => hstart
  | cons part parts ih =>
      intro start hstart
      exact ih (fun p hp => h p (by simp [hp])) _
        (Rope.wellSized_append hstart (h part (by simp)))

/-- The first alternative, and every other one after a bar. -/
theorem contents_alternation (first : Profile) (rest : List Profile) :
    (alternation (first :: rest)).text.contents
      = first.text.contents ++ rest.flatMap fun part => '|' :: part.text.contents := by
  suffices hfold : ∀ start : Rope,
      (rest.foldl (fun text part => text ++ Rope.ofChar '|' ++ part.text) start).contents
        = start.contents ++ rest.flatMap fun part => '|' :: part.text.contents from
    hfold first.text
  induction rest with
  | nil => intro start; simp
  | cons part rest ih =>
      intro start
      rw [List.foldl_cons, ih, Rope.contents_append, Rope.contents_append, Rope.contents_ofChar,
        List.flatMap_cons, List.append_assoc, List.append_assoc]
      rfl

/-- The alternatives with a bar between neighbours. -/
theorem contents_alternation_eq_intercalate (parts : List Profile) :
    (alternation parts).text.contents = ['|'].intercalate (parts.map (·.text.contents)) := by
  cases parts with
  | nil => rfl
  | cons first rest =>
      rw [contents_alternation]
      induction rest generalizing first with
      | nil => simp
      | cons next rest ih =>
          rw [List.flatMap_cons, List.cons_append, ih next]
          simp [List.intercalate]

theorem wellSized_alternation {parts : List Profile}
    (h : ∀ part ∈ parts, part.text.WellSized) : (alternation parts).text.WellSized := by
  cases parts with
  | nil => exact Rope.WellFormed.empty.wellSized
  | cons first rest =>
      suffices hfold : ∀ start : Rope, start.WellSized →
          (rest.foldl (fun text part => text ++ Rope.ofChar '|' ++ part.text) start).WellSized from
        hfold _ (h first (by simp))
      have hrest : ∀ part ∈ rest, part.text.WellSized := fun part hp => h part (by simp [hp])
      clear h
      induction rest with
      | nil => exact fun start hstart => hstart
      | cons part rest ih =>
          intro start hstart
          refine ih (fun p hp => hrest p (by simp [hp])) _ ?_
          exact Rope.wellSized_append (Rope.wellSized_append hstart (Rope.wellSized_ofString _))
            (hrest part (by simp))

end Profile

theorem RawAtom.text_wellSized (a : RawAtom) : a.profile.text.WellSized := by
  cases a with
  | entity e => exact Rope.wellSized_ofString _
  | literal text => exact Rope.wellSized_ofString _

theorem Raw.Coherent.text_wellSized {r : Raw} (h : r.Coherent) : r.profile.text.WellSized := by
  cases r with
  | atom a => exact a.text_wellSized
  | compound c => exact h.wellSized

theorem Expr.WellBuilt.text_wellSized {e : Expr} (h : e.WellBuilt) : e.text.WellSized := by
  induction h with
  | literal text => exact Rope.wellSized_ofString _
  | charLiteral c => exact Rope.wellSized_ofString _
  | raw coherent => exact coherent.text_wellSized
  | adopted pattern => exact Rope.wellSized_ofString _
  | charClass _ => exact Rope.wellSized_ofString _
  | sequence _ _ _ _ _ ih =>
      apply Profile.wellSized_concatenation
      intro part hp
      obtain ⟨e, he, rfl⟩ := List.mem_map.mp hp
      exact ih e he
  | alternation _ _ _ _ ih =>
      apply Profile.wellSized_alternation
      intro part hp
      obtain ⟨e, he, rfl⟩ := List.mem_map.mp hp
      exact ih e he
  | quantified _ _ _ ih => exact Rope.wellSized_append ih (Rope.wellSized_ofString _)
  | group _ _ ih =>
      exact Rope.wellSized_append (Rope.wellSized_append (Rope.wellSized_ofString _) ih)
        (Rope.wellSized_ofString _)

/-! ## Patterns -/

namespace Expr

/-- The pattern that the expression stands for, in full. -/
def render (e : Expr) : String := String.ofList e.text.contents

@[simp] theorem toList_render (e : Expr) : e.render.toList = e.text.contents :=
  String.toList_ofList

/-- The pattern is written out exactly if there is room for it. -/
theorem WellBuilt.checkedRender_eq_ok_iff {e : Expr} (h : e.WellBuilt) :
    e.checkedRender = .ok e.render ↔ Text.Fits e.render :=
  h.text_wellSized.checkedRender_eq_ok_iff

end Expr

end PatternAlgebra
