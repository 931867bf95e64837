import PatternAlgebra.Proofs.Construction.Sequences
/-!
# Splicing keeps compounds flat

A compound lists entities and literals, and its type says so.  Nothing but the way in which
compounds are built makes that enough: given a compound as a part, the loop that takes in the parts
goes on with the components of that compound in place of the compound itself.

Here is that loop on trees in which a compound may have compounds among its components.  A part adds
components, text and analysis, each in its own way, and what the loop has gathered is known part by
part.  Flat parts give a flat compound, so whatever is built from entities and literals is flat, and
it is the tree of a raw node that is built from the same parts.
-/

namespace PatternAlgebra

/-- A raw node in which a compound may consist of any raw nodes. -/
inductive RawTree where
  | entity (e : Entity)
  | literal (text : String)
  | compound (components : List RawTree) (profile : Profile)

namespace RawTree

/-- The text and the analysis of the node. -/
def profile : RawTree → Profile
  | entity e => .ofEntity e
  | literal text => .ofLiteral text
  | compound _ profile => profile

/-- Whether the node is a compound. -/
def isCompound : RawTree → Bool
  | compound _ _ => true
  | _ => false

/-- What has been gathered from the parts so far. -/
structure Gathered where
  components : Array RawTree := #[]
  text : Rope := .empty
  analyses : Array Analysis := #[]

/-- One more part, with the components of a compound in its place. -/
def Gathered.take (g : Gathered) (part : RawTree) : Gathered where
  components :=
    match part with
    | compound components _ => g.components ++ components.toArray
    | other => g.components.push other
  text := g.text ++ part.profile.text
  analyses := g.analyses.push part.profile.analysis

/-- The compound of some parts. -/
def ofParts (parts : List RawTree) : RawTree :=
  let g := parts.foldl Gathered.take {}
  compound g.components.toList ⟨g.text, .concatenation g.analyses.toList⟩

/-! ## What is gathered -/

/-- The components that a part brings into a compound. -/
def opened : RawTree → List RawTree
  | compound components _ => components
  | part => [part]

/-- One part adds what it brings, to each of the three. -/
theorem toList_components_take (g : Gathered) (part : RawTree) :
    (g.take part).components.toList = g.components.toList ++ part.opened := by
  cases part with
  | entity e => exact Array.toList_push
  | literal text => exact Array.toList_push
  | compound components profile => exact Array.toList_append

/-- All parts in turn add what they bring, in order. -/
theorem foldl_take (parts : List RawTree) (g : Gathered) :
    (parts.foldl Gathered.take g).components.toList
        = g.components.toList ++ parts.flatMap opened ∧
      (parts.foldl Gathered.take g).text
        = parts.foldl (fun text part => text ++ part.profile.text) g.text ∧
      (parts.foldl Gathered.take g).analyses.toList
        = g.analyses.toList ++ parts.map (·.profile.analysis) := by
  induction parts generalizing g with
  | nil => exact ⟨(List.append_nil _).symm, rfl, (List.append_nil _).symm⟩
  | cons part parts ih =>
      obtain ⟨hcomponents, htext, hanalyses⟩ := ih (g.take part)
      refine ⟨?_, htext, ?_⟩
      · rw [List.foldl_cons, hcomponents, toList_components_take, List.flatMap_cons,
          List.append_assoc]
      · have hpush : (g.take part).analyses.toList
            = g.analyses.toList ++ [part.profile.analysis] := Array.toList_push
        rw [List.foldl_cons, hanalyses, hpush, List.append_assoc]
        rfl

/-- The compound of some parts has the components that they bring, and their profiles in a row. -/
theorem ofParts_eq (parts : List RawTree) :
    ofParts parts = compound (parts.flatMap opened) (.concatenation (parts.map profile)) := by
  obtain ⟨hcomponents, htext, hanalyses⟩ := foldl_take parts {}
  have hanalysis : (parts.map profile).map Profile.analysis = parts.map (·.profile.analysis) :=
    List.map_map
  rw [ofParts, hcomponents, htext, hanalyses, Profile.concatenation, List.foldl_map, hanalysis]
  rfl

/-! ## Flat nodes -/

/-- No component of the node is a compound. -/
def IsFlat : RawTree → Prop
  | compound components _ => ∀ c ∈ components, c.isCompound = false
  | _ => True

/-- A flat part brings no compound along. -/
theorem IsFlat.isCompound_of_mem_opened {part c : RawTree} (h : part.IsFlat)
    (hc : c ∈ part.opened) : c.isCompound = false := by
  cases part with
  | entity e =>
      obtain rfl := List.mem_singleton.mp hc
      rfl
  | literal text =>
      obtain rfl := List.mem_singleton.mp hc
      rfl
  | compound components profile => exact h c hc

theorem isFlat_ofParts {parts : List RawTree} (h : ∀ part ∈ parts, part.IsFlat) :
    (ofParts parts).IsFlat := by
  rw [ofParts_eq]
  intro c hc
  obtain ⟨part, hpart, hc⟩ := List.mem_flatMap.mp hc
  exact (h part hpart).isCompound_of_mem_opened hc

/-- What can be built from entities and literals. -/
inductive Spliced : RawTree → Prop where
  | entity (e : Entity) : Spliced (entity e)
  | literal (text : String) : Spliced (literal text)
  | ofParts {parts : List RawTree} (h : ∀ part ∈ parts, Spliced part) : Spliced (ofParts parts)

/-- **Everything that can be built is flat.** -/
theorem Spliced.isFlat {t : RawTree} (h : t.Spliced) : t.IsFlat := by
  induction h with
  | entity e => trivial
  | literal text => trivial
  | ofParts _ ih => exact isFlat_ofParts ih

end RawTree

/-! ## Raw nodes as trees -/

/-- The atom as a tree. -/
def RawAtom.tree : RawAtom → RawTree
  | entity e => .entity e
  | literal text => .literal text

/-- The raw node as a tree. -/
def Raw.tree : Raw → RawTree
  | atom a => a.tree
  | compound c => .compound (c.atoms.map RawAtom.tree) c.profile

namespace Raw

theorem profile_tree (r : Raw) : r.tree.profile = r.profile := by
  cases r with
  | atom a => cases a <;> rfl
  | compound c => rfl

theorem opened_tree (r : Raw) : r.tree.opened = r.atoms.map RawAtom.tree := by
  cases r with
  | atom a => cases a <;> rfl
  | compound c => rfl

/-- Building a compound of raw nodes is building one of their trees. -/
theorem tree_ofParts (parts : List Raw) :
    (compound (.ofParts parts)).tree = RawTree.ofParts (parts.map tree) := by
  have hcomponents : (parts.flatMap atoms).map RawAtom.tree
      = (parts.map tree).flatMap RawTree.opened := by
    rw [List.map_flatMap, List.flatMap_map]
    exact List.flatMap_congr fun r _ => r.opened_tree.symm
  have hprofiles : parts.map profile = (parts.map tree).map RawTree.profile := by
    rw [List.map_map]
    exact List.map_congr_left fun r _ => r.profile_tree.symm
  rw [RawTree.ofParts_eq, ← hcomponents, ← hprofiles]
  rfl

/-- Two raw nodes with one tree are the same. -/
theorem tree_injective : Function.Injective tree := by
  have hatom : Function.Injective RawAtom.tree := by
    intro a b h
    cases a <;> cases b <;> simp_all [RawAtom.tree]
  intro r s h
  cases r with
  | atom a =>
      cases s with
      | atom b => exact congrArg atom (hatom h)
      | compound d => cases a <;> exact nomatch h
  | compound c =>
      cases s with
      | atom b => cases b <;> exact nomatch h
      | compound d =>
          obtain ⟨hatoms, hprofile⟩ := RawTree.compound.inj h
          obtain ⟨atoms, profile⟩ := c
          obtain rfl := List.map_injective_iff.mpr hatom hatoms
          obtain rfl : profile = d.profile := hprofile
          rfl

end Raw

/-- Trees of raw nodes, one by one. -/
theorem exists_map_tree_eq {parts : List RawTree}
    (h : ∀ part ∈ parts, ∃ r : Raw, r.tree = part ∧ r.Coherent) :
    ∃ raws : List Raw, raws.map Raw.tree = parts ∧ ∀ r ∈ raws, r.Coherent := by
  induction parts with
  | nil => exact ⟨[], rfl, fun r hr => nomatch hr⟩
  | cons part parts ih =>
      obtain ⟨r, rfl, hr⟩ := h part (by simp)
      obtain ⟨raws, rfl, hraws⟩ := ih fun p hp => h p (by simp [hp])
      exact ⟨r :: raws, rfl, List.forall_mem_cons.mpr ⟨hr, hraws⟩⟩

/-- **Raw nodes are what can be built.**  Whatever can be built from entities and literals by
    splicing is the tree of exactly one raw node, and that is coherent. -/
theorem RawTree.Spliced.existsUnique_raw {t : RawTree} (h : t.Spliced) :
    ∃! r : Raw, r.tree = t ∧ r.Coherent := by
  suffices hexists : ∃ r : Raw, r.tree = t ∧ r.Coherent by
    obtain ⟨r, hr, hcoherent⟩ := hexists
    exact ⟨r, ⟨hr, hcoherent⟩, fun s hs => Raw.tree_injective (hs.1.trans hr.symm)⟩
  induction h with
  | entity e => exact ⟨.entity e, rfl, trivial⟩
  | literal text => exact ⟨.literal text, rfl, trivial⟩
  | ofParts _ ih =>
      obtain ⟨raws, rfl, hraws⟩ := exists_map_tree_eq ih
      exact ⟨.compound (.ofParts raws), Raw.tree_ofParts raws, coherent_ofParts hraws⟩

end PatternAlgebra
