import PatternAlgebra.Proofs.Script.Constructible
/-!
# Compounds do not depend on how they were put together

Raw nodes can be appended two at a time, or any number of them made a compound at once, and what
comes out can be used again in either way.  Whatever the nesting, the outcome lists the entities and
literals of the operands in order, and it has the text and the analysis of these in a row.

The three are not computed together.  The list opens every part that is a compound already, while
text and analysis are put together from the parts as they are.  A raw node says the same as its
atoms in a row, though, and this is all that is needed: once the atoms of the outcome are known, so
are its text and its analysis.
-/

namespace PatternAlgebra

open Script Script.Eval

/-! ## The atoms of raw nodes -/

namespace Node

/-- The entities and literals that a content consists of, if it is raw. -/
def Content.atoms : Content → List RawAtom
  | expr e => e.atoms
  | compound c => c.atoms

/-- The entities and literals that some nodes consist of, in order. -/
def atoms (ns : List Node) : List RawAtom := ns.flatMap (·.content.atoms)

/-- The same as nodes, none of which is a compound. -/
def leaves (ns : List Node) : List Node := (atoms ns).map fun a => raw (.atom a)

/-- A well-built node that converts to a raw one. -/
def IsRaw (n : Node) : Prop := n.WellBuilt ∧ n.toRaw?.isSome

theorem atoms_append (ns ms : List Node) : atoms (ns ++ ms) = atoms ns ++ atoms ms :=
  List.flatMap_append

theorem atoms_of_toRaw? {n : Node} {r : Raw} (h : n.toRaw? = some r) :
    r.atoms = n.content.atoms := by
  cases n with
  | literal text => exact (Option.some.inj h) ▸ rfl
  | charLiteral c => exact (Option.some.inj h) ▸ rfl
  | entity e => exact (Option.some.inj h) ▸ rfl
  | raw r => exact (Option.some.inj h) ▸ rfl
  | compound c => exact (Option.some.inj h) ▸ rfl
  | _ => exact nomatch h

/-- A raw node is written like its atoms one after another. -/
theorem IsRaw.contents_eq {n : Node} (h : n.IsRaw) :
    n.profile.text.contents = n.content.atoms.flatMap (·.profile.text.contents) := by
  obtain ⟨r, hr⟩ := Option.isSome_iff_exists.mp h.2
  rw [← profile_of_toRaw? hr, (h.1.toRaw? hr).contents_eq, atoms_of_toRaw? hr]

/-- A raw node matches like its atoms in a row. -/
theorem IsRaw.analysis_eq {n : Node} (h : n.IsRaw) :
    Analysis.concatenation [n.profile.analysis]
      = Analysis.concatenation (n.content.atoms.map (·.profile.analysis)) := by
  obtain ⟨r, hr⟩ := Option.isSome_iff_exists.mp h.2
  rw [← profile_of_toRaw? hr, (h.1.toRaw? hr).analysis_eq, atoms_of_toRaw? hr]

variable {ns : List Node}

/-- Raw nodes are written like their leaves. -/
theorem render_leaves (h : ∀ n ∈ ns, n.IsRaw) :
    String.join ((leaves ns).map render) = String.join (ns.map render) := by
  have hatom : ∀ a : RawAtom, (raw (.atom a)).render.toList = a.profile.text.contents :=
    fun a => toList_render (raw (.atom a))
  apply String.toList_inj.mp
  rw [String.toList_join, String.toList_join, leaves, atoms, List.flatMap_map, List.flatMap_map,
    List.flatMap_map, List.flatMap_assoc]
  refine List.flatMap_congr fun n hn => ?_
  rw [toList_render, (h n hn).contents_eq]
  exact List.flatMap_congr fun a _ => hatom a

/-- Raw nodes in a row match like their leaves. -/
theorem analysis_leaves (h : ∀ n ∈ ns, n.IsRaw) :
    Analysis.concatenation ((leaves ns).map (·.profile.analysis))
      = Analysis.concatenation (ns.map (·.profile.analysis)) := by
  rw [leaves, atoms, List.map_map, List.map_flatMap]
  exact (Analysis.concatenation_map_eq_flatMap _ _ _ fun n hn => (h n hn).analysis_eq).symm

end Node

/-! ## Ways to put raw nodes together -/

/-- A way to put raw nodes together. -/
inductive Joining where
  /-- An operand as it is. -/
  | operand (n : Node)
  /-- One raw node and then another. -/
  | append (first second : Joining)
  /-- A compound of any number of raw nodes. -/
  | compound (parts : List Joining)

namespace Joining

mutual

/-- The operands from left to right. -/
def operands : Joining → List Node
  | operand n => [n]
  | append first second => operands first ++ operands second
  | compound parts => operandsAll parts

/-- The operands of all parts from left to right. -/
def operandsAll : List Joining → List Node
  | [] => []
  | j :: js => operands j ++ operandsAll js

end

mutual

/-- The node that is built, or the operand alone. -/
def build : Joining → Eval Node
  | operand n => pure n
  | append first second => do
    let a ← build first
    let b ← build second
    Binary.append.build a b
  | compound parts => do
    let ns ← buildAll parts
    Nary.compound.build ns

/-- The nodes of all parts. -/
def buildAll : List Joining → Eval (List Node)
  | [] => pure []
  | j :: js => do
    let a ← build j
    let rest ← buildAll js
    return a :: rest

end

/-! ## What is built -/

/-- Raw nodes that consist together of what the operands consist of. -/
structure Flattens (ns operands : List Node) : Prop where
  isRaw : ∀ n ∈ ns, n.IsRaw
  atoms_eq : Node.atoms ns = Node.atoms operands

namespace Flattens

variable {ns ms xs ys : List Node}

theorem append (h : Flattens ns xs) (h' : Flattens ms ys) : Flattens (ns ++ ms) (xs ++ ys) where
  isRaw := by
    intro n hn
    rcases List.mem_append.mp hn with hn | hn
    · exact h.isRaw n hn
    · exact h'.isRaw n hn
  atoms_eq := by rw [Node.atoms_append, Node.atoms_append, h.atoms_eq, h'.atoms_eq]

/-- Raw nodes become a coherent compound of their atoms. -/
theorem exists_parts (h : Flattens ns xs) :
    ∃ rs, List.Forall₂ (fun n r => n.toRaw? = some r) ns rs ∧
      (Compound.ofParts rs).Coherent ∧ (Compound.ofParts rs).atoms = Node.atoms xs := by
  obtain ⟨rs, hrs⟩ : ∃ rs, List.Forall₂ (fun (n : Node) r => n.toRaw? = some r) ns rs :=
    exists_forall₂_of_isSome fun n hn => (h.isRaw n hn).2
  refine ⟨rs, hrs, coherent_ofParts ?_, ?_⟩
  · exact returns_mapM_convert (fun _ _ => returns_asRaw) (fun n hn => (h.isRaw n hn).1)
      (returns_mapM.mpr (hrs.imp fun _ _ hr => returns_require.mpr hr))
  · rw [← h.atoms_eq]
    exact (flatMap_eq_of_forall₂ (hrs.imp fun _ _ hr => (Node.atoms_of_toRaw? hr).symm)).symm

theorem returns_compound (h : Flattens ns xs) :
    ∃ c, (Nary.compound.build ns).Returns (.compound c) ∧ Flattens [.compound c] xs := by
  obtain ⟨rs, hrs, hcoherent, hatoms⟩ := h.exists_parts
  refine ⟨.ofParts rs, ?_, ?_, (List.flatMap_singleton _ _).trans hatoms⟩
  · refine returns_bind.mpr ⟨rs, returns_mapM.mpr ?_, returns_pure.mpr rfl⟩
    exact hrs.imp fun _ _ hr => returns_require.mpr hr
  · intro n hn
    obtain rfl := List.mem_singleton.mp hn
    exact ⟨hcoherent, rfl⟩

theorem returns_append {n m : Node} (h : Flattens [n, m] xs) :
    ∃ c, (Binary.append.build n m).Returns (.raw (.compound c)) ∧
      Flattens [.raw (.compound c)] xs := by
  obtain ⟨rs, hrs, hcoherent, hatoms⟩ := h.exists_parts
  refine ⟨.ofParts rs, ?_, ?_, (List.flatMap_singleton _ _).trans hatoms⟩
  · match rs, hrs with
    | [r, s], .cons hr (.cons hs .nil) =>
      refine returns_bind.mpr ⟨r, returns_require.mpr hr, ?_⟩
      exact returns_bind.mpr ⟨s, returns_require.mpr hs, returns_pure.mpr rfl⟩
  · intro k hk
    obtain rfl := List.mem_singleton.mp hk
    exact ⟨.raw hcoherent, rfl⟩

end Flattens

/-- What has been built: a raw node that consists of what the operands consist of, and a compound
    if there are two or more of them. -/
structure Builds (n : Node) (operands : List Node) : Prop where
  flattens : Flattens [n] operands
  compound : 2 ≤ operands.length → ∃ c, n.toRaw? = some (.compound c)

mutual

/-- Every way to put raw operands together can be built. -/
theorem build_spec : ∀ j : Joining, (∀ n ∈ j.operands, n.IsRaw) →
    ∃ n, j.build.Returns n ∧ Builds n j.operands
  | operand n, h => by
    simp only [operands] at h ⊢
    refine ⟨n, ?_, ⟨h, rfl⟩, fun hseveral => absurd hseveral (by simp)⟩
    rw [build, returns_pure]
  | append first second, h => by
    simp only [operands] at h ⊢
    obtain ⟨n, hn, hfirst⟩ := build_spec first fun k hk => h k (List.mem_append_left _ hk)
    obtain ⟨m, hm, hsecond⟩ := build_spec second fun k hk => h k (List.mem_append_right _ hk)
    obtain ⟨c, hc, hflattens⟩ := (hfirst.flattens.append hsecond.flattens).returns_append
    refine ⟨_, ?_, hflattens, fun _ => ⟨c, rfl⟩⟩
    rw [build]
    exact returns_bind.mpr ⟨n, hn, returns_bind.mpr ⟨m, hm, hc⟩⟩
  | compound parts, h => by
    simp only [operands] at h ⊢
    obtain ⟨ns, hns, hparts⟩ := buildAll_spec parts h
    obtain ⟨c, hc, hflattens⟩ := hparts.returns_compound
    refine ⟨_, ?_, hflattens, fun _ => ⟨c, rfl⟩⟩
    rw [build]
    exact returns_bind.mpr ⟨ns, hns, hc⟩

theorem buildAll_spec : ∀ js : List Joining, (∀ n ∈ operandsAll js, n.IsRaw) →
    ∃ ns, (buildAll js).Returns ns ∧ Flattens ns (operandsAll js)
  | [], _ => by
    refine ⟨[], ?_, ?_⟩
    · rw [buildAll, returns_pure]
    · rw [operandsAll]
      exact ⟨(fun n hn => nomatch hn), rfl⟩
  | j :: js, h => by
    simp only [operandsAll] at h ⊢
    obtain ⟨n, hn, hfirst⟩ := build_spec j fun k hk => h k (List.mem_append_left _ hk)
    obtain ⟨ns, hns, hrest⟩ := buildAll_spec js fun k hk => h k (List.mem_append_right _ hk)
    refine ⟨n :: ns, ?_, hfirst.flattens.append hrest⟩
    rw [buildAll]
    exact returns_bind.mpr ⟨n, hn, returns_bind.mpr ⟨ns, hns, returns_pure.mpr rfl⟩⟩

end

end Joining

/-! ## The compound of some operands -/

/-- A raw node that is a compound and says what the operands say in a row. -/
structure Node.IsCompoundOf (n : Node) (c : Compound) (operands : List Node) : Prop where
  raw_eq : n.toRaw? = some (.compound c)
  /-- The parts are the leaves of the operands in order, and no compound is among them. -/
  components_eq : (Node.compound c).components? = some (leaves operands)
  render_eq : n.render = String.join ((leaves operands).map render)
  render_operands : n.render = String.join (operands.map render)
  checkedRender_eq_ok_iff : n.checkedRender = .ok n.render ↔ Text.Fits n.render
  analysis_eq : n.profile.analysis
    = Analysis.concatenation ((leaves operands).map (·.profile.analysis))
  analysis_operands : n.profile.analysis
    = Analysis.concatenation (operands.map (·.profile.analysis))

namespace Joining.Flattens

variable {n : Node} {c : Compound} {operands : List Node}

theorem atoms_compound (h : Flattens [n] operands) (hraw : n.toRaw? = some (.compound c)) :
    c.atoms = Node.atoms operands := by
  rw [← h.atoms_eq, Node.atoms, List.flatMap_singleton]
  exact Node.atoms_of_toRaw? hraw

/-- A compound with the atoms of the operands says what they say in a row. -/
theorem isCompoundOf (h : Flattens [n] operands) (hraw : n.toRaw? = some (.compound c))
    (hoperands : ∀ k ∈ operands, k.IsRaw) : n.IsCompoundOf c operands := by
  have hatoms := h.atoms_compound hraw
  have hleaves : Node.leaves [n] = Node.leaves operands := by
    rw [Node.leaves, h.atoms_eq, Node.leaves]
  have hrender : n.render = String.join ((Node.leaves operands).map Node.render) := by
    rw [← hleaves, Node.render_leaves h.isRaw]
    simp
  have hanalysis : n.profile.analysis
      = Analysis.concatenation ((Node.leaves operands).map (·.profile.analysis)) := by
    obtain ⟨hwellBuilt, -⟩ := h.isRaw n (List.mem_singleton_self n)
    have hcoherent : c.Coherent := hwellBuilt.toRaw? hraw
    rw [← Node.profile_of_toRaw? hraw, Node.leaves, ← hatoms, List.map_map]
    show c.profile.analysis = _
    rw [hcoherent.analysis_eq, Profile.concatenation, List.map_map]
    rfl
  constructor
  case raw_eq => exact hraw
  case components_eq =>
    rw [Node.components?, hatoms, Node.leaves]
  case render_eq => exact hrender
  case render_operands => rw [hrender, Node.render_leaves hoperands]
  case checkedRender_eq_ok_iff =>
    obtain ⟨hwellBuilt, -⟩ := h.isRaw n (List.mem_singleton_self n)
    exact hwellBuilt.checkedRender_eq_ok_iff
  case analysis_eq => exact hanalysis
  case analysis_operands => rw [hanalysis, Node.analysis_leaves hoperands]

end Joining.Flattens

/-- **Any two ways to put the same raw nodes together agree.**  At least two operands build equal
    compounds.  Each lists the entities and literals of the operands in order, it is written like
    them one after another if there is room for that, and it has the analysis of them in a row. -/
theorem compound_eq_of_operands_eq {x y : Joining} (hsame : x.operands = y.operands)
    (hseveral : 2 ≤ x.operands.length)
    (hoperands : ∀ n ∈ x.operands, Constructible n ∧ n.toRaw?.isSome) :
    ∃ (n m : Node) (c d : Compound), x.build.Returns n ∧ y.build.Returns m ∧
      n.IsCompoundOf c x.operands ∧ m.IsCompoundOf d y.operands ∧ (c == d) = true := by
  have hraw : ∀ n ∈ x.operands, n.IsRaw :=
    fun n hn => ⟨(hoperands n hn).1.wellBuilt, (hoperands n hn).2⟩
  obtain ⟨n, hn, hx⟩ := x.build_spec hraw
  obtain ⟨m, hm, hy⟩ := y.build_spec (hsame ▸ hraw)
  obtain ⟨c, hc⟩ := hx.compound hseveral
  obtain ⟨d, hd⟩ := hy.compound (hsame ▸ hseveral)
  refine ⟨n, m, c, d, hn, hm, hx.flattens.isCompoundOf hc hraw,
    hy.flattens.isCompoundOf hd (hsame ▸ hraw), ?_⟩
  show (c.atoms == d.atoms) = true
  rw [hx.flattens.atoms_compound hc, hy.flattens.atoms_compound hd, hsame]
  exact BEq.rfl

/-- A compound without parts and one of two parts among the operands, appended one by one from the
    end or opened all at once. -/
theorem compound_eq_around_an_empty_compound :
    let start : Joining := .operand (.entity .lineBegin)
    let empty : Joining := .operand (.compound (.ofParts []))
    let pair : Joining := .operand (.raw ((Raw.literal "a.").append (.literal "b")))
    let c : Joining := .operand (.charLiteral 'c')
    let x : Joining := .append start (.append empty (.append pair c))
    let y : Joining := .compound [.compound [start, empty], .compound [pair], .compound [], c]
    ∃ (n m : Node) (d e : Compound), x.build.Returns n ∧ y.build.Returns m ∧ (d == e) = true ∧
      (Node.compound d).components?
        = some [.raw (.entity .lineBegin), .raw (.literal "a."), .raw (.literal "b"),
          .raw (.literal "c")] ∧
      n.render = "^a\\.bc" ∧ m.render = "^a\\.bc" ∧ n.profile.analysis.boundedLength = some 4 := by
  intro start empty pair c x y
  have hnone : ∀ n ∈ ([] : List Node), Constructible n := fun n hn => nomatch hn
  have hempty : Constructible (.compound (.ofParts [])) := .nary .compound hnone rfl
  have ha : Constructible (.literal "a.") := .leaf (.literal "a.") rfl
  have hb : Constructible (.literal "b") := .leaf (.literal "b") rfl
  have hoperands : ∀ n ∈ x.operands, Constructible n ∧ n.toRaw?.isSome := by
    intro n hn
    have hn : n ∈ [Node.entity .lineBegin, .compound (.ofParts []),
      .raw ((Raw.literal "a.").append (.literal "b")), .charLiteral 'c'] := hn
    simp only [List.mem_cons, List.not_mem_nil, or_false] at hn
    rcases hn with rfl | rfl | rfl | rfl
    · exact ⟨.leaf (.entity .lineBegin) rfl, rfl⟩
    · exact ⟨hempty, rfl⟩
    · exact ⟨.binary .append ha hb rfl, rfl⟩
    · exact ⟨.leaf (.charLiteral 'c') rfl, rfl⟩
  obtain ⟨n, m, d, e, hn, hm, hd, he, hequal⟩ :=
    compound_eq_of_operands_eq (x := x) (y := y) rfl (by decide) hoperands
  refine ⟨n, m, d, e, hn, hm, hequal, hd.components_eq, ?_, ?_, ?_⟩
  · rw [hd.render_eq]
    decide +kernel
  · rw [he.render_eq]
    decide +kernel
  · rw [hd.analysis_eq]
    rfl

end PatternAlgebra
