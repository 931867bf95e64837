import PatternAlgebra.Proofs.Construction.Interchange
import PatternAlgebra.Proofs.Construction.Oversized
/-!
# Stored profiles say what the tree says

Nodes with parts store their text and their analysis, and neither equality nor hashing looks at
what is stored.  This is sound because both can be computed afresh from the tree, at every depth,
and come out the same: whatever the history of a node, its profile is a function of its shape.

What is computed here looks at no stored profile, so it is the same for two trees of one shape, and
equal nodes are such trees.
-/

namespace PatternAlgebra

/-! ## Text and analysis afresh -/

namespace RawAtom

/-- The text of the atom. -/
def freshText : RawAtom → List Char
  | entity e => e.text.toList
  | literal text => escapeChars text.toList

/-- The analysis of the atom. -/
def freshAnalysis : RawAtom → Analysis
  | entity e => e.analysis
  | literal text => .fixed text.length

end RawAtom

namespace Raw

/-- The text of the atoms in a row. -/
def freshText (r : Raw) : List Char := r.atoms.flatMap RawAtom.freshText

/-- The analysis of an atom, or of the atoms of a compound in a row. -/
def freshAnalysis : Raw → Analysis
  | atom a => a.freshAnalysis
  | compound c => .concatenation (c.atoms.map RawAtom.freshAnalysis)

end Raw

namespace Expr

mutual

/-- The text of an expression, computed from the tree alone. -/
def freshText : Expr → List Char
  | literal text => escapeChars text.toList
  | charLiteral c => escapedAlone c
  | raw r => r.freshText
  | adopted pattern => pattern.toList
  | charClass k => k.independentChars
  | sequence components _ => (freshTexts components).flatten
  | alternation alternatives _ => ['|'].intercalate (freshTexts alternatives)
  | quantified base quantifier mode _ =>
    freshText base ++ quantifier.text.toList ++ mode.suffix.toList
  | group kind nested _ => kind.opening.toList ++ freshText nested ++ [')']

/-- The text of each expression. -/
def freshTexts : List Expr → List (List Char)
  | [] => []
  | e :: es => freshText e :: freshTexts es

end

mutual

/-- The analysis of an expression, computed from the tree alone. -/
def freshAnalysis : Expr → Analysis
  | literal text => .fixed text.length
  | charLiteral _ => .singleChar
  | raw r => r.freshAnalysis
  | adopted _ => .unknown
  | charClass _ => .singleChar
  | sequence components _ => .concatenation (freshAnalyses components)
  | alternation alternatives _ => .alternation (freshAnalyses alternatives)
  | quantified base quantifier _ _ => quantifier.analysis (freshAnalysis base)
  | group _ nested _ => freshAnalysis nested

/-- The analysis of each expression. -/
def freshAnalyses : List Expr → List Analysis
  | [] => []
  | e :: es => freshAnalysis e :: freshAnalyses es

end

theorem freshTexts_eq_map (es : List Expr) : freshTexts es = es.map freshText := by
  induction es with
  | nil => rfl
  | cons e es ih => rw [freshTexts, List.map_cons, ih]

theorem freshAnalyses_eq_map (es : List Expr) : freshAnalyses es = es.map freshAnalysis := by
  induction es with
  | nil => rfl
  | cons e es ih => rw [freshAnalyses, List.map_cons, ih]

end Expr

/-! ## What a hasher is fed with -/

/-- One thing that a hasher is fed with. -/
inductive HashInput where
  /-- Which kind of node comes next. -/
  | kind (k : NodeType)
  /-- How many items come next. -/
  | count (n : Nat)
  | text (s : String)
  | char (c : Char)
  | entity (e : Entity)
  | charClass (k : CharClass)
  | groupKind (k : GroupKind)
  | quantifier (q : Quantifier)
  | mode (m : Mode)

namespace HashInput

/-- What an atom feeds. -/
def ofAtom : RawAtom → List HashInput
  | .entity e => [kind .entity, entity e]
  | .literal s => [kind .literal, text s]

/-- What the parts of a compound feed. -/
def ofCompound (c : Compound) : List HashInput := count c.atoms.length :: c.atoms.flatMap ofAtom

/-- What a raw node feeds. -/
def ofRaw : Raw → List HashInput
  | .atom a => ofAtom a
  | .compound c => kind .compound :: ofCompound c

mutual

/-- What an expression feeds, in the order in which it does. -/
def ofExpr : Expr → List HashInput
  | .literal s => [kind .literal, text s]
  | .charLiteral c => [kind .charLiteral, char c]
  | .raw r => kind .raw :: ofRaw r
  | .adopted pattern => [kind .adopted, text pattern]
  | .charClass k => [kind .charClass, charClass k]
  | .sequence components _ => kind .sequence :: count components.length :: ofExprs components
  | .alternation alternatives _ =>
    kind .alternation :: count alternatives.length :: ofExprs alternatives
  | .quantified base q m _ => kind .quantified :: ofExpr base ++ [quantifier q, mode m]
  | .group k nested _ => kind .group :: groupKind k :: ofExpr nested

/-- What expressions feed one after another. -/
def ofExprs : List Expr → List HashInput
  | [] => []
  | e :: es => ofExpr e ++ ofExprs es

end

end HashInput

/-! ## Shapes decide -/

/-- Two expressions that nothing tells apart but what is stored in them. -/
structure LooksLike (a b : Expr) : Prop where
  text_eq : a.freshText = b.freshText
  analysis_eq : a.freshAnalysis = b.freshAnalysis
  input_eq : HashInput.ofExpr a = HashInput.ofExpr b
  hash_eq : a.hashCode = b.hashCode

/-- Two lists of expressions that nothing tells apart but what is stored in them. -/
structure AllLookLike (as bs : List Expr) : Prop where
  length_eq : as.length = bs.length
  texts_eq : Expr.freshTexts as = Expr.freshTexts bs
  analyses_eq : Expr.freshAnalyses as = Expr.freshAnalyses bs
  inputs_eq : HashInput.ofExprs as = HashInput.ofExprs bs
  hashes_eq : Expr.hashCodes as = Expr.hashCodes bs

theorem looksLike_bare_raw (r : Raw) : LooksLike (.raw r.bare) (.raw r) := by
  cases r with
  | atom a => exact ⟨rfl, rfl, rfl, rfl⟩
  | compound c => exact ⟨rfl, rfl, rfl, rfl⟩

mutual

/-- Nothing is lost with the stored profiles. -/
theorem looksLike_bare : ∀ e : Expr, LooksLike e.bare e
  | .literal _ => ⟨rfl, rfl, rfl, rfl⟩
  | .charLiteral _ => ⟨rfl, rfl, rfl, rfl⟩
  | .raw r => looksLike_bare_raw r
  | .adopted _ => ⟨rfl, rfl, rfl, rfl⟩
  | .charClass _ => ⟨rfl, rfl, rfl, rfl⟩
  | .sequence components _ => by
    have h := allLookLike_bareAll components
    constructor
    case text_eq => rw [Expr.bare, Expr.freshText, Expr.freshText, h.texts_eq]
    case analysis_eq => rw [Expr.bare, Expr.freshAnalysis, Expr.freshAnalysis, h.analyses_eq]
    case input_eq => rw [Expr.bare, HashInput.ofExpr, HashInput.ofExpr, h.length_eq, h.inputs_eq]
    case hash_eq => rw [Expr.bare, Expr.hashCode, Expr.hashCode, h.hashes_eq]
  | .alternation alternatives _ => by
    have h := allLookLike_bareAll alternatives
    constructor
    case text_eq => rw [Expr.bare, Expr.freshText, Expr.freshText, h.texts_eq]
    case analysis_eq => rw [Expr.bare, Expr.freshAnalysis, Expr.freshAnalysis, h.analyses_eq]
    case input_eq => rw [Expr.bare, HashInput.ofExpr, HashInput.ofExpr, h.length_eq, h.inputs_eq]
    case hash_eq => rw [Expr.bare, Expr.hashCode, Expr.hashCode, h.hashes_eq]
  | .quantified base _ _ _ => by
    have h := looksLike_bare base
    constructor
    case text_eq => rw [Expr.bare, Expr.freshText, Expr.freshText, h.text_eq]
    case analysis_eq => rw [Expr.bare, Expr.freshAnalysis, Expr.freshAnalysis, h.analysis_eq]
    case input_eq => rw [Expr.bare, HashInput.ofExpr, HashInput.ofExpr, h.input_eq]
    case hash_eq => rw [Expr.bare, Expr.hashCode, Expr.hashCode, h.hash_eq]
  | .group _ nested _ => by
    have h := looksLike_bare nested
    constructor
    case text_eq => rw [Expr.bare, Expr.freshText, Expr.freshText, h.text_eq]
    case analysis_eq => rw [Expr.bare, Expr.freshAnalysis, Expr.freshAnalysis, h.analysis_eq]
    case input_eq => rw [Expr.bare, HashInput.ofExpr, HashInput.ofExpr, h.input_eq]
    case hash_eq => rw [Expr.bare, Expr.hashCode, Expr.hashCode, h.hash_eq]

theorem allLookLike_bareAll : ∀ es : List Expr, AllLookLike (Expr.bareAll es) es
  | [] => ⟨rfl, rfl, rfl, rfl, rfl⟩
  | e :: es => by
    have h := looksLike_bare e
    have hs := allLookLike_bareAll es
    constructor
    case length_eq => rw [Expr.bareAll, List.length_cons, List.length_cons, hs.length_eq]
    case texts_eq => rw [Expr.bareAll, Expr.freshTexts, Expr.freshTexts, h.text_eq, hs.texts_eq]
    case analyses_eq =>
      rw [Expr.bareAll, Expr.freshAnalyses, Expr.freshAnalyses, h.analysis_eq, hs.analyses_eq]
    case inputs_eq =>
      rw [Expr.bareAll, HashInput.ofExprs, HashInput.ofExprs, h.input_eq, hs.inputs_eq]
    case hashes_eq => rw [Expr.bareAll, Expr.hashCodes, Expr.hashCodes, h.hash_eq, hs.hashes_eq]

end

/-- Equal expressions look alike. -/
theorem looksLike_of_beq {a b : Expr} (h : (a == b) = true) : LooksLike a b := by
  have hshape := Expr.beq_iff_bare_eq.mp h
  have ha := looksLike_bare a
  have hb := looksLike_bare b
  rw [hshape] at ha
  constructor
  case text_eq => exact ha.text_eq.symm.trans hb.text_eq
  case analysis_eq => exact ha.analysis_eq.symm.trans hb.analysis_eq
  case input_eq => exact ha.input_eq.symm.trans hb.input_eq
  case hash_eq => exact ha.hash_eq.symm.trans hb.hash_eq

/-! ## Stored is as computed afresh -/

namespace RawAtom

theorem contents_eq_freshText (a : RawAtom) : a.profile.text.contents = a.freshText := by
  cases a with
  | entity e => exact Rope.contents_ofString e.text
  | literal text =>
      show (Rope.ofString (escape text)).contents = escapeChars text.toList
      rw [Rope.contents_ofString, escape, String.toList_ofList]

theorem analysis_eq_freshAnalysis (a : RawAtom) : a.profile.analysis = a.freshAnalysis := by
  cases a <;> rfl

end RawAtom

namespace Raw.Coherent

variable {r : Raw}

theorem contents_eq_freshText (h : r.Coherent) : r.profile.text.contents = r.freshText := by
  rw [h.contents_eq]
  exact List.flatMap_congr fun a _ => a.contents_eq_freshText

theorem analysis_eq_freshAnalysis (h : r.Coherent) : r.profile.analysis = r.freshAnalysis := by
  cases r with
  | atom a => exact a.analysis_eq_freshAnalysis
  | compound c =>
      have hc : c.Coherent := h
      show c.profile.analysis = .concatenation (c.atoms.map RawAtom.freshAnalysis)
      rw [hc.analysis_eq]
      show Analysis.concatenation ((c.atoms.map RawAtom.profile).map _) = _
      rw [List.map_map]
      exact congrArg _ (List.map_congr_left fun a _ => a.analysis_eq_freshAnalysis)

end Raw.Coherent

/-- The profile of a well-built expression is the one computed from the tree. -/
theorem Expr.WellBuilt.profile_fresh {e : Expr} (h : e.WellBuilt) :
    e.text.contents = e.freshText ∧ e.analysis = e.freshAnalysis := by
  induction h with
  | literal text => exact ⟨(RawAtom.literal text).contents_eq_freshText, rfl⟩
  | charLiteral c =>
      refine ⟨?_, rfl⟩
      show (Rope.ofString (escapeChar c)).contents = escapedAlone c
      rw [Rope.contents_ofString, escapeChar, String.toList_ofList]
  | raw coherent => exact ⟨coherent.contents_eq_freshText, coherent.analysis_eq_freshAnalysis⟩
  | adopted pattern => exact ⟨Rope.contents_ofString pattern, rfl⟩
  | @charClass k _ =>
      refine ⟨?_, rfl⟩
      show (Rope.ofString k.independent).contents = k.independentChars
      rw [Rope.contents_ofString, CharClass.independent, String.toList_ofList]
  | @sequence components _ _ _ _ _ ih =>
      constructor
      · show (Profile.concatenation (components.map Expr.profile)).text.contents
          = (freshTexts components).flatten
        rw [Profile.contents_concatenation, List.flatMap_map, freshTexts_eq_map, ← List.flatMap_def]
        exact List.flatMap_congr fun e he => (ih e he).1
      · show Analysis.concatenation ((components.map Expr.profile).map _)
          = .concatenation (freshAnalyses components)
        rw [List.map_map, freshAnalyses_eq_map]
        exact congrArg _ (List.map_congr_left fun e he => (ih e he).2)
  | @alternation alternatives _ _ _ _ ih =>
      constructor
      · show (Profile.alternation (alternatives.map Expr.profile)).text.contents
          = ['|'].intercalate (freshTexts alternatives)
        rw [Profile.contents_alternation_eq_intercalate, List.map_map, freshTexts_eq_map]
        exact congrArg _ (List.map_congr_left fun e he => (ih e he).1)
      · show Analysis.alternation ((alternatives.map Expr.profile).map _)
          = .alternation (freshAnalyses alternatives)
        rw [List.map_map, freshAnalyses_eq_map]
        exact congrArg _ (List.map_congr_left fun e he => (ih e he).2)
  | @quantified base quantifier mode _ _ ih =>
      constructor
      · show (base.expr.text ++ Rope.ofString (quantifier.text ++ mode.suffix)).contents
          = base.expr.freshText ++ quantifier.text.toList ++ mode.suffix.toList
        rw [Rope.contents_append, Rope.contents_ofString, String.toList_append, ih.1,
          List.append_assoc]
      · show quantifier.analysis base.expr.analysis = quantifier.analysis base.expr.freshAnalysis
        rw [ih.2]
  | @group kind nested _ _ ih =>
      constructor
      · show (Rope.ofString kind.opening ++ nested.text ++ Rope.ofChar ')').contents
          = kind.opening.toList ++ nested.freshText ++ [')']
        rw [Rope.contents_append, Rope.contents_append, Rope.contents_ofString,
          Rope.contents_ofChar, ih.1]
      · exact ih.2

/-! ## Nodes of every type -/

namespace Node.Content

/-- The text of the content, computed from the tree alone. -/
def freshText : Content → List Char
  | expr e => e.freshText
  | compound c => (Raw.compound c).freshText

/-- The analysis of the content, computed from the tree alone. -/
def freshAnalysis : Content → Analysis
  | expr e => e.freshAnalysis
  | compound c => (Raw.compound c).freshAnalysis

/-- What the content feeds to a hasher. -/
def hashInput : Content → List HashInput
  | expr e => HashInput.ofExpr e
  | compound c => HashInput.ofCompound c

theorem WellBuilt.profile_fresh {c : Content} (h : c.WellBuilt) :
    c.profile.text.contents = c.freshText ∧ c.profile.analysis = c.freshAnalysis := by
  cases c with
  | expr e => exact Expr.WellBuilt.profile_fresh h
  | compound c =>
      have hc : (Raw.compound c).Coherent := h
      exact ⟨hc.contents_eq_freshText, hc.analysis_eq_freshAnalysis⟩

/-- Equal contents have the same text, the same analysis and the same hash afresh. -/
theorem fresh_eq_of_beq {c d : Content} (h : (c == d) = true) :
    c.freshText = d.freshText ∧ c.freshAnalysis = d.freshAnalysis ∧
      c.hashInput = d.hashInput ∧ hash c = hash d := by
  cases c with
  | expr a =>
      cases d with
      | expr b =>
          have hlike : LooksLike a b := looksLike_of_beq h
          exact ⟨hlike.text_eq, hlike.analysis_eq, hlike.input_eq,
            congrArg (mixHash 1) hlike.hash_eq⟩
      | compound _ => exact nomatch h
  | compound a =>
      cases d with
      | expr _ => exact nomatch h
      | compound b =>
          have hatoms : a.atoms = b.atoms := eq_of_beq (show (a.atoms == b.atoms) = true from h)
          refine ⟨?_, ?_, ?_, ?_⟩
          · rw [freshText, freshText, Raw.freshText, Raw.freshText, Raw.atoms, Raw.atoms, hatoms]
          · rw [freshAnalysis, freshAnalysis, Raw.freshAnalysis, Raw.freshAnalysis, hatoms]
          · rw [hashInput, hashInput, HashInput.ofCompound, HashInput.ofCompound, hatoms]
          · show mixHash 2 (hash a.atoms) = mixHash 2 (hash b.atoms)
            rw [hatoms]

end Node.Content

/-- **Stored profiles are determined by what equality compares.**  The text and the analysis of a
    constructible node are those computed afresh from its tree.  The text is stored right exactly if
    it has fewer characters than there are words, and written out exactly if there is room for it.
    So a node that equals it, however that was built, has the same text and the same analysis and
    feeds the same data to a hasher; and as long as no compound in the node has more characters than
    there are words, the outcome of writing them is the same. -/
theorem profile_determined_by_tree {n : Node} (hn : Script.Constructible n) :
    n.render = String.ofList n.content.freshText ∧
    n.profile.analysis = n.content.freshAnalysis ∧
    (n.content.freshText.length < wordLimit ↔ n.profile.text.length < wordLimit ∧
      (n.profile.text == Rope.ofString (String.ofList n.content.freshText)) = true) ∧
    (n.checkedRender = .ok (String.ofList n.content.freshText) ↔
      Text.Fits (String.ofList n.content.freshText)) ∧
    ∀ m : Node, Script.Constructible m → (n.content == m.content) = true →
      n.render = m.render ∧
      (n.content.HasShortCompounds → n.checkedRender = m.checkedRender) ∧
      n.profile.analysis = m.profile.analysis ∧
      n.content.hashInput = m.content.hashInput ∧ hash n.content = hash m.content := by
  have hwellBuilt := hn.wellBuilt
  obtain ⟨htext, hanalysis⟩ := Node.Content.WellBuilt.profile_fresh hwellBuilt
  have htext : n.profile.text.contents = n.content.freshText := htext
  have hrender : n.render = String.ofList n.content.freshText := congrArg String.ofList htext
  refine ⟨hrender, hanalysis, ?_, ?_, ?_⟩
  · rw [← htext]
    exact hwellBuilt.text_wellSized.length_lt_iff
  · rw [← hrender]
    exact hwellBuilt.checkedRender_eq_ok_iff
  · intro m hm heq
    obtain ⟨hsame, hsameAnalysis, hinput, hhash⟩ := Node.Content.fresh_eq_of_beq heq
    obtain ⟨hmtext, hmanalysis⟩ := Node.Content.WellBuilt.profile_fresh hm.wellBuilt
    have hcontents : n.profile.text.contents = m.profile.text.contents :=
      htext.trans (hsame.trans hmtext.symm)
    exact ⟨congrArg String.ofList hcontents,
      Node.Content.WellBuilt.checkedRender_eq hwellBuilt hm.wellBuilt heq,
      hanalysis.trans (hsameAnalysis.trans hmanalysis.symm), hinput, hhash⟩

/-- One run of raw nodes, put together at once and from the end. -/
theorem profile_determined_by_tree_of_run :
    let a : Raw := .literal "a"
    let b : Raw := .literal "b"
    let c : Raw := .entity .anyChar
    let atOnce : Node := .compound (.ofParts [a, b, c])
    let fromEnd : Node := .compound (.ofParts [a, .compound (.ofParts [b, c])])
    Script.Constructible atOnce ∧ Script.Constructible fromEnd ∧
      (atOnce.content == fromEnd.content) = true ∧ atOnce.render = fromEnd.render ∧
      atOnce.checkedRender = .ok "ab." ∧
      atOnce.profile.analysis = fromEnd.profile.analysis ∧
      atOnce.content.hashInput = fromEnd.content.hashInput ∧
      hash atOnce.content = hash fromEnd.content := by
  intro a b c atOnce fromEnd
  have ha : Script.Constructible (.literal "a") := .leaf (.literal "a") rfl
  have hb : Script.Constructible (.literal "b") := .leaf (.literal "b") rfl
  have hc : Script.Constructible (.entity .anyChar) := .leaf (.entity .anyChar) rfl
  have hleaves : ∀ p ∈ [Node.literal "a", .literal "b", .entity .anyChar],
      Script.Constructible p := by
    simp [ha, hb, hc]
  have hatOnce : Script.Constructible atOnce := .nary .compound hleaves rfl
  have hend : ∀ p ∈ [Node.literal "b", .entity .anyChar], Script.Constructible p := by
    simp [hb, hc]
  have hbc : Script.Constructible (.compound (.ofParts [b, c])) := .nary .compound hend rfl
  have hparts : ∀ p ∈ [Node.literal "a", .compound (.ofParts [b, c])],
      Script.Constructible p := by
    simp [ha, hbc]
  have hfromEnd : Script.Constructible fromEnd := .nary .compound hparts rfl
  obtain ⟨-, -, -, hwritten, hequal⟩ := profile_determined_by_tree hatOnce
  have hfresh : String.ofList atOnce.content.freshText = "ab." := by decide
  rw [hfresh] at hwritten
  obtain ⟨hrender, -, hanalysis, hinput, hhash⟩ := hequal fromEnd hfromEnd rfl
  exact ⟨hatOnce, hfromEnd, rfl, hrender, hwritten.mpr (by decide), hanalysis, hinput, hhash⟩

/-- Of a sequence that is too long for words, only four characters are stored. -/
theorem profile_cut_off_past_the_last_word :
    let n : Node := .sequence (Sequence.pair (.ofGroup (.crowd 15)) (.ofLiteral "abcdef")).value
    Script.Constructible n ∧ n.content.freshText.length = wordLimit + 4 ∧
      n.profile.text.length = 4 ∧ n.checkedRender = .ok "((((" := by
  obtain ⟨g, hcrowd, hg⟩ := Group.exists_eq_crowd
  rw [hg]
  intro n
  have hn : Script.Constructible n := hcrowd.constructible_sequence "abcdef"
  obtain ⟨htext, -⟩ := Node.Content.WellBuilt.profile_fresh hn.wellBuilt
  obtain ⟨hlength, hrender⟩ := hcrowd.checkedRender_sequence
  exact ⟨hn, htext ▸ hcrowd.length_contents_sequence, hlength, hrender⟩

end PatternAlgebra
