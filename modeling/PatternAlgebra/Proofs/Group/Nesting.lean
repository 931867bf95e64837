import PatternAlgebra.Proofs.Construction.Oversized
/-!
# Groups in groups

A row of groups around an expression adds parentheses to its text and nothing to its analysis, so
only the expression itself decides whether a look-behind in the row is admitted, wherever it stands.
If it is not, the row ends at its first look-behind, and what is reported is the text as it was
before that one.
-/

namespace PatternAlgebra

open Script Script.Eval

namespace GroupKind

/-- A text in the parentheses of a row of groups, the first kind innermost. -/
def around (kinds : List GroupKind) (text : String) : String :=
  String.join (kinds.reverse.map opening) ++ text ++ String.ofList (List.replicate kinds.length ')')

@[simp] theorem around_nil (text : String) : around [] text = text := by
  apply String.toList_inj.mp
  simp [around]

theorem around_cons (kind : GroupKind) (kinds : List GroupKind) (text : String) :
    around (kind :: kinds) text = around kinds (kind.opening ++ text ++ ")") := by
  apply String.toList_inj.mp
  have hclosing : (")" : String).toList = [')'] := rfl
  simp [around, hclosing, List.replicate_succ]

/-- A row of groups that an expression can be enclosed in. -/
def Admits (kinds : List GroupKind) (e : Expr) : Prop :=
  e.analysis.boundedLength.isSome = true ∨ ∀ kind ∈ kinds, kind.isLookBehind = false

end GroupKind

/-- The node is written as the expression in a row of groups, as far as there is room for that, and
    has its analysis. -/
structure Node.Encloses (n : Node) (kinds : List GroupKind) (e : Expr) : Prop where
  analysis_eq : n.profile.analysis = e.analysis
  render_eq : n.render = GroupKind.around kinds e.render
  checkedRender_eq_ok_iff : n.checkedRender = .ok (GroupKind.around kinds e.render) ↔
    Text.Fits (GroupKind.around kinds e.render)

/-- What comes of a look-behind that is refused around something with this text: the failure with
    the text, or the fault that came up in writing it out. -/
def Script.refused : Except Fault String → Logged (Except Failure Node)
  | .ok text => ⟨.error (.build (.unboundedLookBehind text)), [.rejectingLookBehind text]⟩
  | .error fault => ⟨.error (.fault fault), []⟩

/-! ## One more group -/

variable {n : Node} {e : Expr} {kind : GroupKind} {kinds : List GroupKind}

/-- The innermost group of a row is asked for first, and the rest of the row goes around it. -/
theorem Script.enclose_cons (he : n.toExpr? = some e) :
    enclose n (kind :: kinds)
      = attempting (Group.ofKind kind e) >>= fun group => enclose (.group group) kinds := by
  rw [enclose, asExpr, he]
  rfl

theorem Script.enclose_cons_of_admitted (he : n.toExpr? = some e)
    (hbound : kind.isLookBehind = true → e.analysis.boundedLength ≠ none) :
    enclose n (kind :: kinds) = enclose (.group (Group.build kind e)) kinds := by
  rw [enclose_cons he, Group.ofKind_of_bounded hbound]
  rfl

/-- A refused look-behind ends the row, with nothing made of the kinds around it. -/
theorem Script.run_enclose_cons_of_refused (he : n.toExpr? = some e)
    (hkind : kind.isLookBehind = true) (hbound : e.analysis.boundedLength = none) :
    (enclose n (kind :: kinds)).run = refused n.checkedRender := by
  have htext := Node.checkedRender_of_content (Node.content_of_toExpr? he)
  rw [enclose_cons he, Group.ofKind_of_unbounded hkind hbound, htext]
  cases e.checkedRender with
  | error fault => rfl
  | ok text => rfl

/-! ## Rows of groups -/

/-- A row that is admitted is gone through to its end, and what comes after it goes around the node
    that is made by then. -/
theorem Script.enclose_append (hn : n.WellBuilt) (he : n.toExpr? = some e)
    (hbound : ∀ kind ∈ kinds, kind.isLookBehind = true → e.analysis.boundedLength ≠ none) :
    ∃ m d, (∀ rest, enclose n (kinds ++ rest) = enclose m rest) ∧ m.toExpr? = some d ∧
      d.analysis = e.analysis ∧ m.Encloses kinds e := by
  induction kinds generalizing n e with
  | nil =>
      have hprofile := Node.profile_of_content (Node.content_of_toExpr? he)
      have hrender := Node.render_of_content (Node.content_of_toExpr? he)
      refine ⟨n, e, fun _ => rfl, he, rfl, congrArg Profile.analysis hprofile, ?_, ?_⟩
      · rw [GroupKind.around_nil, hrender]
      · rw [GroupKind.around_nil, ← hrender]
        exact hn.checkedRender_eq_ok_iff
  | cons kind kinds ih =>
      have hnested : e.WellBuilt := hn.of_content_eq (Node.content_of_toExpr? he)
      have hgroup : (Group.build kind e).toExpr.WellBuilt := .group (hbound kind (by simp)) hnested
      -- the bound that the kinds further out ask for is that of the same expression
      obtain ⟨m, d, hrest, hd, hanalysis, hencloses⟩ := ih (n := .group (Group.build kind e)) hgroup
        rfl fun k hk => hbound k (by simp [hk])
      have haround : GroupKind.around kinds (Group.build kind e).toExpr.render
          = GroupKind.around (kind :: kinds) e.render := by
        rw [Group.render_build, GroupKind.around_cons]
      refine ⟨m, d, fun rest => ?_, hd, hanalysis, hencloses.analysis_eq, ?_, ?_⟩
      · rw [List.cons_append, enclose_cons_of_admitted he (hbound kind (by simp))]
        exact hrest rest
      · rw [hencloses.render_eq, haround]
      · rw [← haround]
        exact hencloses.checkedRender_eq_ok_iff

/-- Every step of a row that is admitted succeeds. -/
theorem GroupKind.Admits.enclose_returns (h : Admits kinds e) (hn : n.WellBuilt)
    (he : n.toExpr? = some e) {steps : List GroupKind} (hsteps : steps <+: kinds) :
    ∃ m, (enclose n steps).Returns m ∧ m.Encloses steps e := by
  have hbounded : ∀ kind ∈ steps, kind.isLookBehind = true → e.analysis.boundedLength ≠ none := by
    intro kind hkind hlookBehind
    rcases h with hbound | hnone
    · exact Option.isSome_iff_ne_none.mp hbound
    · exact nomatch hlookBehind.symm.trans (hnone kind (hsteps.subset hkind))
  obtain ⟨m, d, hrest, -, -, hencloses⟩ := Script.enclose_append hn he hbounded
  have hall := hrest []
  rw [List.append_nil] at hall
  exact ⟨m, by rw [hall, enclose, returns_pure], hencloses⟩

/-- A row without look-behinds, and then one that is refused. -/
theorem Script.run_enclose_of_refused {before : List GroupKind} (hn : n.WellBuilt)
    (he : n.toExpr? = some e) (hbefore : ∀ k ∈ before, k.isLookBehind = false)
    (hkind : kind.isLookBehind = true) (hbound : e.analysis.boundedLength = none) :
    ∃ m, (enclose n before).Returns m ∧ m.Encloses before e ∧
      ∀ rest, (enclose n (before ++ kind :: rest)).run = refused m.checkedRender := by
  have hbounded : ∀ k ∈ before, k.isLookBehind = true → e.analysis.boundedLength ≠ none :=
    fun k hk hlookBehind => nomatch hlookBehind.symm.trans (hbefore k hk)
  obtain ⟨m, d, hrest, hd, hanalysis, hencloses⟩ := Script.enclose_append hn he hbounded
  have hall := hrest []
  rw [List.append_nil] at hall
  refine ⟨m, by rw [hall, enclose, returns_pure], hencloses, fun rest => ?_⟩
  rw [hrest]
  exact run_enclose_cons_of_refused hd hkind (hanalysis ▸ hbound)

/-- **Rows of groups are transparent, and fail once.**  A row around an expression of bounded
    length, or a row without look-behinds, is made to its end, and so is every start of it: the
    outcome has the analysis of the expression and its text between the opening parentheses of the
    row, outermost first, and as many closing ones.  Any other row is made up to its first
    look-behind, and there it fails with the text that there is by then, whatever comes after.
    Texts are written out exactly if there is room for them, also the text that a refused
    look-behind is reported with. -/
theorem enclose_isTransparent_or_fails_once (hn : Script.Constructible n)
    (he : n.toExpr? = some e) (kinds : List GroupKind) :
    (GroupKind.Admits kinds e → ∀ steps, steps <+: kinds →
      ∃ m, (enclose n steps).Returns m ∧ m.Encloses steps e) ∧
    (¬ GroupKind.Admits kinds e → ∃ before kind after, kinds = before ++ kind :: after ∧
      (∀ k ∈ before, k.isLookBehind = false) ∧ kind.isLookBehind = true ∧
      (∀ steps, steps <+: before → ∃ m, (enclose n steps).Returns m ∧ m.Encloses steps e) ∧
      (∃ m, (enclose n before).Returns m ∧ m.Encloses before e ∧
        ∀ rest, (enclose n (before ++ kind :: rest)).run = refused m.checkedRender) ∧
      (Text.Fits (GroupKind.around before e.render) →
        ∀ rest, (enclose n (before ++ kind :: rest)).run
          = ⟨.error (.build (.unboundedLookBehind (GroupKind.around before e.render))),
              [.rejectingLookBehind (GroupKind.around before e.render)]⟩)) := by
  have hwellBuilt := hn.wellBuilt
  constructor
  · intro hadmits steps hsteps
    exact hadmits.enclose_returns hwellBuilt he hsteps
  · intro hrefuses
    have hbound : e.analysis.boundedLength = none :=
      Option.not_isSome_iff_eq_none.mp fun h => hrefuses (Or.inl h)
    cases hfirst : kinds.find? GroupKind.isLookBehind with
    | none =>
        have hnone := List.find?_eq_none.mp hfirst
        exact absurd (Or.inr fun k hk => Bool.not_eq_true _ ▸ hnone k hk) hrefuses
    | some kind =>
        obtain ⟨hkind, before, after, hsplit, hnot⟩ := List.find?_eq_some_iff_append.mp hfirst
        have hbefore : ∀ k ∈ before, k.isLookBehind = false := by
          intro k hk
          exact (Bool.not_eq_true' _).mp (hnot k hk)
        have hadmits : GroupKind.Admits before e := Or.inr hbefore
        have hfails := run_enclose_of_refused hwellBuilt he hbefore hkind hbound
        refine ⟨before, kind, after, hsplit, hbefore, hkind,
          fun steps hsteps => hadmits.enclose_returns hwellBuilt he hsteps, hfails, ?_⟩
        intro hfits rest
        obtain ⟨m, -, hencloses, hrun⟩ := hfails
        rw [hrun, hencloses.checkedRender_eq_ok_iff.mpr hfits]
        rfl

/-- One digit goes into four groups, two of them look-behinds.  One or more digits go into the first
    two of these and no further. -/
theorem enclose_isTransparent_or_fails_once_around_digits :
    let kinds : List GroupKind := [.capture, .enableFlags [.caseInsensitive, .caseInsensitive],
      .positiveLookBehind, .negativeLookBehind]
    let digit : Node := .charClass .digit
    let digits : Node := .quantified (.build (.ofCharClass .digit) .atLeastOnce .greedy)
    Script.Constructible digit ∧ Script.Constructible digits ∧
      (∃ m, (enclose digit kinds).Returns m ∧ m.profile.analysis = .singleChar ∧
        m.checkedRender = .ok "(?<!(?<=(?ii:(\\d))))") ∧
      (enclose digits kinds).run = ⟨.error (.build (.unboundedLookBehind "(?ii:(\\d+))")),
        [.rejectingLookBehind "(?ii:(\\d+))"]⟩ := by
  intro kinds digit digits
  have hdigit : Script.Constructible digit := .leaf (.predefined (.shorthand .digit)) rfl
  have hdigits : Script.Constructible digits := .unary (.quantify .atLeastOnce .greedy) hdigit rfl
  have hadmits : GroupKind.Admits kinds (.charClass .digit) := Or.inl rfl
  have hrefuses : ¬ GroupKind.Admits kinds
      (Quantified.build (.ofCharClass .digit) .atLeastOnce .greedy).toExpr := by
    rintro (hbound | hnone)
    · exact nomatch hbound
    · exact nomatch hnone .positiveLookBehind (by simp [kinds])
  obtain ⟨m, hm, hanalysis, -, hwritten⟩ :=
    (enclose_isTransparent_or_fails_once hdigit rfl kinds).1 hadmits kinds (List.prefix_refl _)
  obtain ⟨before, kind, after, hsplit, hbefore, hkind, -, -, hfails⟩ :=
    (enclose_isTransparent_or_fails_once hdigits rfl kinds).2 hrefuses
  have htwo : kinds.takeWhile (fun k => !k.isLookBehind) = before := by
    rw [hsplit, List.takeWhile_append_of_pos fun k hk => by rw [hbefore k hk]; rfl,
      List.takeWhile_cons_of_neg (by rw [hkind]; decide), List.append_nil]
  have hone : (Expr.charClass .digit).render = "\\d" := rfl
  have hmany : (Quantified.build (.ofCharClass .digit) .atLeastOnce .greedy).toExpr.render
      = "\\d+" := rfl
  refine ⟨hdigit, hdigits, ⟨m, hm, hanalysis, ?_⟩, ?_⟩
  · rw [hone] at hwritten
    exact hwritten.mpr (by decide)
  · subst htwo
    rw [hmany] at hfails
    rw [hsplit]
    exact hfails (by decide) after

/-- One group more around an expression of which a word just holds the length: nothing is written of
    it. -/
theorem enclose_cut_off_past_the_last_word :
    let n : Node := .group (.crowd 15)
    Script.Constructible n ∧ GroupKind.Admits [.capture] (Group.crowd 15).toExpr ∧
      ∃ m, (enclose n [.capture]).Returns m ∧ m.profile.text.length = 0 ∧
        m.checkedRender = .ok "" ∧
        (GroupKind.around [.capture] (Group.crowd 15).toExpr.render).length = wordLimit := by
  obtain ⟨g, hcrowd, hg⟩ := Group.exists_eq_crowd
  rw [hg]
  intro n
  have hadmits : GroupKind.Admits [.capture] g.toExpr := by
    refine Or.inr fun kind hkind => ?_
    obtain rfl := List.mem_singleton.mp hkind
    rfl
  have hlength : (GroupKind.around [.capture] g.toExpr.render).length = wordLimit := by
    rw [GroupKind.around_cons, GroupKind.around_nil, ← Group.render_build, ← String.length_toList,
      Expr.toList_render]
    exact hcrowd.length_contents_capture
  obtain ⟨hshort, -, hrender⟩ := hcrowd.checkedRender_capture
  exact ⟨hcrowd.constructible, hadmits, _, rfl, hshort, hrender, hlength⟩

end PatternAlgebra
