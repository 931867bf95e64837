import PatternAlgebra.Proofs.Construction.Composites
/-!
# Nodes of a tree

What is said of an expression as a whole is often said of every node of its tree.  Such a statement
splits into one about the topmost node and the same statement about the trees of its parts, which
is the form an induction over expressions needs.

The atoms of a compound count as nodes, although they are not expressions of their own there.
-/

namespace PatternAlgebra.Expr

/-- What a node is put together from, where an atom of a compound is a node of its own. -/
def subparts : Expr → List Expr
  | raw (.compound c) => c.atoms.map fun a => raw (.atom a)
  | e => e.parts

/-- Being a node of a tree, the topmost one included. -/
inductive OccursIn (d : Expr) : Expr → Prop where
  | self : OccursIn d d
  | inside {e part : Expr} (hpart : part ∈ e.subparts) (h : OccursIn d part) : OccursIn d e

/-- What holds of all nodes of a tree holds of the topmost one and of all nodes of its parts. -/
theorem forall_occursIn_iff {P : Expr → Prop} {e : Expr} :
    (∀ d, OccursIn d e → P d) ↔ P e ∧ ∀ part ∈ e.subparts, ∀ d, OccursIn d part → P d := by
  constructor
  · intro h
    exact ⟨h e .self, fun part hpart d hd => h d (.inside hpart hd)⟩
  · rintro ⟨hself, hparts⟩ d hd
    cases hd with
    | self => exact hself
    | inside hpart hd => exact hparts _ hpart d hd

theorem WellBuilt.of_mem_subparts {e part : Expr} (h : e.WellBuilt) (hpart : part ∈ e.subparts) :
    part.WellBuilt := by
  cases e with
  | raw r =>
      cases r with
      | atom a => exact nomatch hpart
      | compound c =>
          obtain ⟨a, -, rfl⟩ := List.mem_map.mp hpart
          exact .raw trivial
  | _ => exact h.of_mem_parts hpart

theorem WellBuilt.of_occursIn {d e : Expr} (hd : d.OccursIn e) (h : e.WellBuilt) :
    d.WellBuilt := by
  induction hd with
  | self => exact h
  | inside hpart _ ih => exact ih (h.of_mem_subparts hpart)

end PatternAlgebra.Expr
