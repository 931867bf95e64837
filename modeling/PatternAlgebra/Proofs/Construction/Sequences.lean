import Mathlib.Data.List.Chain
import PatternAlgebra.Proofs.Construction.Invariant
/-!
# Building a sequence keeps expressions well built

The assembly of a sequence holds settled components and a run of raw items to their right.  Taking
in an item keeps what is known of both, and it changes the row of components and run only in ways
that leave its text and its analysis alone: a nested sequence is opened, and a run is merged.
-/

namespace PatternAlgebra

/-! ## Rows with the same text and analysis -/

/-- Two rows of expressions with the same text and the same analysis. -/
structure Alike (xs ys : List Expr) : Prop where
  contents_eq : xs.flatMap (·.text.contents) = ys.flatMap (·.text.contents)
  analysis_eq : Analysis.concatenation (xs.map Expr.analysis)
    = Analysis.concatenation (ys.map Expr.analysis)

namespace Alike

theorem refl (xs : List Expr) : Alike xs xs := ⟨rfl, rfl⟩

theorem trans {xs ys zs : List Expr} (h : Alike xs ys) (h' : Alike ys zs) : Alike xs zs :=
  ⟨h.contents_eq.trans h'.contents_eq, h.analysis_eq.trans h'.analysis_eq⟩

theorem symm {xs ys : List Expr} (h : Alike xs ys) : Alike ys xs :=
  ⟨h.contents_eq.symm, h.analysis_eq.symm⟩

theorem append {xs ys xs' ys' : List Expr} (h : Alike xs ys) (h' : Alike xs' ys') :
    Alike (xs ++ xs') (ys ++ ys') where
  contents_eq := by rw [List.flatMap_append, List.flatMap_append, h.contents_eq, h'.contents_eq]
  analysis_eq := by
    rw [List.map_append, List.map_append, Analysis.concatenation_append,
      Analysis.concatenation_append, h.analysis_eq, h'.analysis_eq]

end Alike

/-- A sequence is like the row of its components. -/
theorem alike_ofComponents (components : List Expr) :
    Alike [(Sequence.ofComponents components).toExpr] components where
  contents_eq := by
    rw [List.flatMap_singleton]
    show (Profile.concatenation (components.map Expr.profile)).text.contents = _
    rw [Profile.contents_concatenation, List.flatMap_map]
    rfl
  analysis_eq := by
    show Analysis.concatenation [Analysis.concatenation ((components.map Expr.profile).map _)] = _
    rw [Analysis.concatenation_singleton_concatenation, List.map_map]
    rfl

/-! ## Merging a run -/

/-- The atoms of a raw item. -/
def Expr.atoms : Expr → List RawAtom
  | .literal text => [.literal text]
  | .charLiteral c => [.literal (String.singleton c)]
  | .raw r => r.atoms
  | _ => []

theorem Raw.Coherent.contents_eq {r : Raw} (h : r.Coherent) :
    r.profile.text.contents = r.atoms.flatMap (·.profile.text.contents) := by
  cases r with
  | atom a => exact (List.flatMap_singleton _ _).symm
  | compound c =>
      have hc : c.Coherent := h
      show c.profile.text.contents = c.atoms.flatMap _
      rw [hc.contents_eq, Profile.contents_concatenation, List.flatMap_map]

theorem Raw.Coherent.analysis_eq {r : Raw} (h : r.Coherent) :
    Analysis.concatenation [r.profile.analysis]
      = Analysis.concatenation (r.atoms.map (·.profile.analysis)) := by
  cases r with
  | atom a => rfl
  | compound c =>
      have hc : c.Coherent := h
      show Analysis.concatenation [c.profile.analysis] = _
      rw [hc.analysis_eq]
      show Analysis.concatenation [Analysis.concatenation ((c.atoms.map RawAtom.profile).map _)] = _
      rw [Analysis.concatenation_singleton_concatenation, List.map_map]
      rfl

/-- A compound made of coherent parts is coherent, although its profile was computed from the
    parts and not from their atoms. -/
theorem coherent_ofParts {parts : List Raw} (h : ∀ r ∈ parts, r.Coherent) :
    (Compound.ofParts parts).Coherent where
  wellSized := by
    apply Profile.wellSized_concatenation
    intro part hp
    obtain ⟨r, hr, rfl⟩ := List.mem_map.mp hp
    exact (h r hr).text_wellSized
  contents_eq := by
    show (Profile.concatenation (parts.map Raw.profile)).text.contents
      = (Profile.concatenation ((parts.flatMap Raw.atoms).map RawAtom.profile)).text.contents
    rw [Profile.contents_concatenation, Profile.contents_concatenation, List.flatMap_map,
      List.flatMap_map, List.flatMap_assoc]
    exact List.flatMap_congr fun r hr => (h r hr).contents_eq
  analysis_eq := by
    show Analysis.concatenation ((parts.map Raw.profile).map Profile.analysis)
      = Analysis.concatenation (((parts.flatMap Raw.atoms).map RawAtom.profile).map _)
    rw [List.map_map, List.map_map, List.map_flatMap]
    exact Analysis.concatenation_map_eq_flatMap _ _ _ fun r hr => (h r hr).analysis_eq

/-- A single character is written as the literal of it. -/
theorem escape_singleton (c : Char) : escape (String.singleton c) = escapeChar c := by
  rw [escape, escapeChar, String.toList_singleton, escapeChars, escapeChars, List.append_nil,
    escapedAlone, List.head?_nil]

theorem profile_literal_singleton (c : Char) :
    (Raw.literal (String.singleton c)).profile = (Expr.charLiteral c).profile := by
  have hliteral : (Raw.literal (String.singleton c)).profile
      = ⟨Rope.ofString (escape (String.singleton c)), .fixed (String.singleton c).length⟩ := rfl
  have hchar : (Expr.charLiteral c).profile = ⟨Rope.ofString (escapeChar c), .singleChar⟩ := rfl
  have hone : Analysis.fixed 1 = .singleChar := by decide
  rw [hliteral, hchar, escape_singleton, String.length_singleton, hone]

/-- A raw item as a raw node: coherent, with the same atoms, text and analysis. -/
theorem asRaw?_of_isRawLike {e : Expr} (hraw : e.isRawLike = true) (h : e.WellBuilt) :
    ∃ r : Raw, e.asRaw? = some r ∧ r.Coherent ∧ r.atoms = e.atoms ∧
      r.profile.text.contents = e.text.contents ∧ r.profile.analysis = e.analysis := by
  cases h with
  | literal text => exact ⟨.literal text, rfl, trivial, rfl, rfl, rfl⟩
  | charLiteral c =>
      refine ⟨.literal (String.singleton c), rfl, trivial, rfl, ?_, ?_⟩
      · rw [profile_literal_singleton, Expr.text]
      · rw [profile_literal_singleton, Expr.analysis]
  | raw coherent => exact ⟨_, rfl, coherent, rfl, rfl, rfl⟩
  | adopted _ => exact absurd hraw (by simp [Expr.isRawLike])
  | charClass _ => exact absurd hraw (by simp [Expr.isRawLike])
  | sequence _ _ _ _ _ => exact absurd hraw (by simp [Expr.isRawLike, Sequence.toExpr])
  | alternation _ _ _ _ => exact absurd hraw (by simp [Expr.isRawLike])
  | quantified _ _ _ => exact absurd hraw (by simp [Expr.isRawLike, Quantified.toExpr])
  | group _ _ => exact absurd hraw (by simp [Expr.isRawLike, Group.toExpr])

theorem filterMap_asRaw?_of_isRawLike {run : List Expr} (hraw : ∀ e ∈ run, e.isRawLike = true)
    (h : ∀ e ∈ run, e.WellBuilt) :
    (∀ r ∈ run.filterMap Expr.asRaw?, r.Coherent) ∧
      (run.filterMap Expr.asRaw?).flatMap Raw.atoms = run.flatMap Expr.atoms ∧
      (run.filterMap Expr.asRaw?).flatMap (·.profile.text.contents)
        = run.flatMap (·.text.contents) ∧
      (run.filterMap Expr.asRaw?).map (·.profile.analysis) = run.map Expr.analysis := by
  induction run with
  | nil => simp
  | cons e run ih =>
      obtain ⟨r, hr, hcoh, hatoms, htext, hanalysis⟩ :=
        asRaw?_of_isRawLike (hraw e (by simp)) (h e (by simp))
      obtain ⟨ihcoh, ihatoms, ihtext, ihanalysis⟩ :=
        ih (fun d hd => hraw d (by simp [hd])) fun d hd => h d (by simp [hd])
      rw [List.filterMap_cons_some hr]
      refine ⟨?_, ?_, ?_, ?_⟩
      · intro s hs
        rcases List.mem_cons.mp hs with rfl | hmem
        · exact hcoh
        · exact ihcoh s hmem
      · rw [List.flatMap_cons, List.flatMap_cons, hatoms, ihatoms]
      · rw [List.flatMap_cons, List.flatMap_cons, htext, ihtext]
      · rw [List.map_cons, List.map_cons, hanalysis, ihanalysis]

namespace Assembly

/-- A merged run is well built, and it is like the run. -/
theorem merged_spec {run : List Expr} (hraw : ∀ e ∈ run, e.isRawLike = true)
    (h : ∀ e ∈ run, e.WellBuilt) :
    (merged run).WellBuilt ∧ (merged run).atoms = run.flatMap Expr.atoms ∧
      Alike [merged run] run := by
  obtain ⟨hcoh, hatoms, htext, hanalysis⟩ := filterMap_asRaw?_of_isRawLike hraw h
  have hwhole := coherent_ofParts hcoh
  refine ⟨.raw hwhole, hatoms, ?_, ?_⟩
  · rw [List.flatMap_singleton, ← htext]
    show (Profile.concatenation ((run.filterMap Expr.asRaw?).map Raw.profile)).text.contents = _
    rw [Profile.contents_concatenation, List.flatMap_map]
  · rw [← hanalysis]
    show Analysis.concatenation [Analysis.concatenation
      (((run.filterMap Expr.asRaw?).map Raw.profile).map Profile.analysis)] = _
    rw [Analysis.concatenation_singleton_concatenation, List.map_map]
    rfl

/-! ## The invariant of an assembly -/

/-- Components and run in a row. -/
def items (a : Assembly) : List Expr := a.components.toList ++ a.run.toList

/-- What may be settled in a sequence. -/
structure Settled (e : Expr) : Prop where
  wellBuilt : e.WellBuilt
  sequenceable : e.isSequenceable = true
  notSequence : e.isSequence = false

/-- Everything in the assembly may be settled, the run is raw, and it has no raw neighbour. -/
structure Sound (a : Assembly) : Prop where
  components_settled : ∀ e ∈ a.components.toList, Settled e
  components_separated : a.components.toList.IsChain Expr.Separated
  last_notRaw : ∀ e ∈ a.components.toList.getLast?, e.isRawLike = false
  run_settled : ∀ e ∈ a.run.toList, Settled e
  run_raw : ∀ e ∈ a.run.toList, e.isRawLike = true

theorem sound_empty : Sound {} where
  components_settled := by simp
  components_separated := .nil
  last_notRaw := by simp
  run_settled := by simp
  run_raw := by simp

theorem settled_merged {run : List Expr} (h : (merged run).WellBuilt) : Settled (merged run) :=
  ⟨h, rfl, rfl⟩

/-- What releasing does to a run of none, of one, and of several. -/
theorem release_cases (a : Assembly) :
    a.run = #[] ∧ a.release = a ∨
    (∃ item, a.run.toList = [item] ∧
      a.release = { a with components := a.components.push item, run := #[] }) ∨
    (2 ≤ a.run.toList.length ∧
      a.release = { components := a.components.push (merged a.run.toList), run := #[],
                    events := a.events.push (.mergingRun a.run.toList.length) }) := by
  unfold release
  match hrun : a.run.toList with
  | [] => exact .inl ⟨by simpa using hrun, rfl⟩
  | [item] => exact .inr (.inl ⟨item, rfl, rfl⟩)
  | _ :: _ :: _ => exact .inr (.inr ⟨by simp, rfl⟩)

/-- Releasing the run leaves the row of items alone and settles at most one more component, which
    is raw. -/
theorem release_spec {a : Assembly} (h : a.Sound) :
    Alike a.release.items a.items ∧ a.release.run = #[] ∧
      (a.release.components = a.components ∧ a.run = #[] ∨
        ∃ e, a.release.components = a.components.push e ∧ Settled e) := by
  rcases release_cases a with ⟨hempty, hrelease⟩ | ⟨item, hrun, hrelease⟩ | ⟨-, hrelease⟩
  · rw [hrelease]
    exact ⟨.refl _, hempty, Or.inl ⟨rfl, hempty⟩⟩
  · have hitem : item ∈ a.run.toList := by rw [hrun]; simp
    rw [hrelease]
    refine ⟨?_, rfl, Or.inr ⟨item, rfl, h.run_settled item hitem⟩⟩
    rw [items, items, hrun]
    simpa using Alike.refl _
  · obtain ⟨hwb, -, halike⟩ := merged_spec h.run_raw fun e he => (h.run_settled e he).wellBuilt
    rw [hrelease]
    refine ⟨?_, rfl, Or.inr ⟨_, rfl, settled_merged hwb⟩⟩
    rw [items, items]
    simpa using Alike.append (.refl a.components.toList) halike

/-- Nothing is held back any more after the run is released. -/
theorem items_release {a : Assembly} (h : a.Sound) :
    a.release.items = a.release.components.toList := by
  obtain ⟨-, hrun, -⟩ := release_spec h
  rw [items, hrun]
  exact List.append_nil _

/-- One more component at the end of separated ones, of which the last is not raw. -/
theorem isChain_push {components : List Expr} (h : components.IsChain Expr.Separated)
    (hlast : ∀ e ∈ components.getLast?, e.isRawLike = false) (item : Expr) :
    (components ++ [item]).IsChain Expr.Separated := by
  rw [List.isChain_append]
  refine ⟨h, .singleton _, fun x hx y _ => Or.inl (hlast x hx)⟩

/-- After the run is released, the components are settled and separated. -/
theorem release_components {a : Assembly} (h : a.Sound) :
    (∀ e ∈ a.release.components.toList, Settled e) ∧
      a.release.components.toList.IsChain Expr.Separated := by
  obtain ⟨-, -, ⟨hsame, -⟩ | ⟨item, hpush, hsettled⟩⟩ := release_spec h
  · rw [hsame]
    exact ⟨h.components_settled, h.components_separated⟩
  · rw [hpush, Array.toList_push]
    refine ⟨?_, isChain_push h.components_separated h.last_notRaw item⟩
    intro e he
    rcases List.mem_append.mp he with hmem | hmem
    · exact h.components_settled e hmem
    · rw [List.mem_singleton.mp hmem]
      exact hsettled

/-! ## Taking in items -/

/-- What an assembly has become by taking in a row of items. -/
structure Takes (a : Assembly) (taken : List Expr) (b : Assembly) : Prop where
  sound : b.Sound
  alike : Alike b.items (a.items ++ taken)
  nonempty : a.items ++ taken ≠ [] → b.items ≠ []

theorem Takes.trans {a b c : Assembly} {xs ys : List Expr} (h : Takes a xs b)
    (h' : Takes b ys c) : Takes a (xs ++ ys) c where
  sound := h'.sound
  alike := by
    rw [← List.append_assoc]
    exact h'.alike.trans (h.alike.append (.refl _))
  nonempty := by
    intro hne
    apply h'.nonempty
    by_cases hfirst : a.items ++ xs = []
    · rw [← List.append_assoc, hfirst, List.nil_append] at hne
      exact fun hnil => hne (List.append_eq_nil_iff.mp hnil).2
    · exact fun hnil => h.nonempty hfirst (List.append_eq_nil_iff.mp hnil).1

theorem items_hold (a : Assembly) (item : Expr) : (a.hold item).items = a.items ++ [item] := by
  simp [items, hold]

theorem items_settle {a : Assembly} (h : a.Sound) (item : Expr) :
    (a.settle item).items = a.release.items ++ [item] := by
  obtain ⟨-, hrun, -⟩ := release_spec h
  simp [items, settle, hrun]

theorem takes_settle {a : Assembly} (h : a.Sound) {item : Expr} (hitem : Settled item)
    (hraw : item.isRawLike = false) : Takes a [item] (a.settle item) := by
  obtain ⟨halike, hrun, -⟩ := release_spec h
  obtain ⟨hsettled, hchain⟩ := release_components h
  have hitems := items_settle h item
  constructor
  case sound =>
    constructor
    case components_settled =>
      intro e he
      rw [settle, Array.toList_push] at he
      rcases List.mem_append.mp he with hmem | hmem
      · exact hsettled e hmem
      · rw [List.mem_singleton.mp hmem]
        exact hitem
    case components_separated =>
      rw [settle, Array.toList_push, List.isChain_append]
      refine ⟨hchain, .singleton _, fun x _ y hy => Or.inr ?_⟩
      obtain rfl : item = y := by simpa using hy
      exact hraw
    case last_notRaw =>
      intro e he
      rw [settle, Array.toList_push, List.getLast?_append] at he
      obtain rfl : item = e := by simpa using he
      exact hraw
    case run_settled => simp [settle, hrun]
    case run_raw => simp [settle, hrun]
  case alike =>
    rw [hitems]
    exact halike.append (.refl _)
  case nonempty =>
    intro _
    rw [hitems]
    exact List.append_ne_nil_of_right_ne_nil _ (List.cons_ne_nil _ _)

theorem takes_hold {a : Assembly} (h : a.Sound) {item : Expr} (hitem : Settled item)
    (hraw : item.isRawLike = true) : Takes a [item] (a.hold item) := by
  have hitems := items_hold a item
  constructor
  case sound =>
    constructor
    case components_settled => exact h.components_settled
    case components_separated => exact h.components_separated
    case last_notRaw => exact h.last_notRaw
    case run_settled =>
      intro e he
      rw [hold, Array.toList_push] at he
      rcases List.mem_append.mp he with hmem | hmem
      · exact h.run_settled e hmem
      · rw [List.mem_singleton.mp hmem]
        exact hitem
    case run_raw =>
      intro e he
      rw [hold, Array.toList_push] at he
      rcases List.mem_append.mp he with hmem | hmem
      · exact h.run_raw e hmem
      · rw [List.mem_singleton.mp hmem]
        exact hraw
  case alike =>
    rw [hitems]
    exact .refl _
  case nonempty =>
    intro hne
    rwa [hitems]

/-- An item that is no sequence is held back if it is raw, and settled otherwise. -/
theorem push_of_notSequence (a : Assembly) {item : Expr} (h : item.isSequence = false) :
    a.push item = if item.isRawLike then a.hold item else a.settle item := by
  rw [push]
  rintro components profile rfl
  exact absurd h (by simp [Expr.isSequence])

theorem takes_push_settled {a : Assembly} (h : a.Sound) {item : Expr} (hitem : Settled item) :
    Takes a [item] (a.push item) := by
  rw [push_of_notSequence a hitem.notSequence]
  cases hraw : item.isRawLike with
  | true => exact takes_hold h hitem hraw
  | false => exact takes_settle h hitem hraw

theorem takes_pushAll {taken : List Expr}
    (hstep : ∀ item ∈ taken, ∀ a : Assembly, a.Sound → Takes a [item] (a.push item))
    {a : Assembly} (h : a.Sound) : Takes a taken (a.pushAll taken) := by
  induction taken generalizing a with
  | nil =>
      rw [pushAll]
      refine ⟨h, ?_, ?_⟩
      · rw [List.append_nil]
        exact .refl _
      · rw [List.append_nil]
        exact id
  | cons item taken ih =>
      have hfirst := hstep item (by simp) a h
      have hrest := ih (fun i hi => hstep i (by simp [hi])) hfirst.sound
      rw [pushAll]
      exact hfirst.trans hrest

/-- A well-built sequence is that of its components, which may be settled. -/
theorem eq_ofComponents_of_isSequence {e : Expr} (h : e.WellBuilt) (hs : e.isSequence = true) :
    ∃ components : List Expr, e = (Sequence.ofComponents components).toExpr ∧
      components ≠ [] ∧ ∀ c ∈ components, Settled c := by
  cases h with
  | @sequence components hne hsequenceable hflat _ hparts =>
      exact ⟨components, rfl, hne, fun c hc => ⟨hparts c hc, hsequenceable c hc, hflat c hc⟩⟩
  | literal _ => exact absurd hs (by simp [Expr.isSequence])
  | charLiteral _ => exact absurd hs (by simp [Expr.isSequence])
  | raw _ => exact absurd hs (by simp [Expr.isSequence])
  | adopted _ => exact absurd hs (by simp [Expr.isSequence])
  | charClass _ => exact absurd hs (by simp [Expr.isSequence])
  | alternation _ _ _ _ => exact absurd hs (by simp [Expr.isSequence])
  | quantified _ _ _ => exact absurd hs (by simp [Expr.isSequence, Quantified.toExpr])
  | group _ _ => exact absurd hs (by simp [Expr.isSequence, Group.toExpr])

/-- Taking in an item of a sequence: a nested sequence is opened, and it is like its components. -/
theorem takes_push {a : Assembly} (h : a.Sound) {item : Expr} (hitem : item.WellBuilt)
    (hseq : item.isSequenceable = true) : Takes a [item] (a.push item) := by
  cases hs : item.isSequence with
  | false => exact takes_push_settled h ⟨hitem, hseq, hs⟩
  | true =>
      -- taken in component by component, none of which is a sequence again
      obtain ⟨components, rfl, hne, hsettled⟩ := eq_ofComponents_of_isSequence hitem hs
      have hopen : a.push (Sequence.ofComponents components).toExpr = a.pushAll components := by
        rw [Sequence.toExpr, Sequence.ofComponents, push]
      have hall : Takes a components (a.pushAll components) :=
        takes_pushAll (fun e he b hb => takes_push_settled hb (hsettled e he)) h
      rw [hopen]
      refine ⟨hall.sound, ?_, ?_⟩
      · exact hall.alike.trans ((Alike.refl _).append (alike_ofComponents components).symm)
      · intro _
        exact hall.nonempty (List.append_ne_nil_of_right_ne_nil _ hne)

end Assembly

/-- A sequence has the analysis of a row, so nothing is lost by looking at it as a row of one. -/
theorem Expr.WellBuilt.concatenation_analysis {e : Expr} (h : e.WellBuilt)
    (hs : e.isSequence = true) : Analysis.concatenation [e.analysis] = e.analysis := by
  obtain ⟨components, rfl, -, -⟩ := Assembly.eq_ofComponents_of_isSequence h hs
  exact Analysis.concatenation_singleton_concatenation _

/-! ## The sequence of some items -/

/-- A sequence built from well-built items is like the row of them, and well built if there is
    any item. -/
theorem Sequence.ofItems_spec {items : List Sequenceable} (h : ∀ s ∈ items, s.expr.WellBuilt) :
    Alike [(Sequence.ofItems items).value.toExpr] (items.map Sequenceable.expr) ∧
      (items ≠ [] → (Sequence.ofItems items).value.toExpr.WellBuilt) := by
  have htakes : Assembly.Takes {} (items.map Sequenceable.expr)
      (Assembly.pushAll {} (items.map Sequenceable.expr)) := by
    apply Assembly.takes_pushAll _ Assembly.sound_empty
    intro e he a ha
    obtain ⟨s, hs, rfl⟩ := List.mem_map.mp he
    exact Assembly.takes_push ha (h s hs) s.allowed
  generalize hb : Assembly.pushAll {} (items.map Sequenceable.expr) = b at htakes
  have hvalue : (Sequence.ofItems items).value = ofComponents b.release.components.toList := by
    rw [Sequence.ofItems, hb]
  obtain ⟨halike, hrun, hcases⟩ := Assembly.release_spec htakes.sound
  obtain ⟨hsettled, hchain⟩ := Assembly.release_components htakes.sound
  have hitems := Assembly.items_release htakes.sound
  rw [hvalue]
  constructor
  · refine (alike_ofComponents _).trans ?_
    rw [← hitems]
    exact halike.trans htakes.alike
  · intro hne
    refine .sequence ?_ (fun e he => (hsettled e he).sequenceable)
      (fun e he => (hsettled e he).notSequence) hchain fun e he => (hsettled e he).wellBuilt
    have hne' : b.items ≠ [] := htakes.nonempty (by simpa [Assembly.items] using hne)
    rcases hcases with ⟨hsame, hempty⟩ | ⟨e, hpush, -⟩
    · rw [hsame]
      rw [Assembly.items, hempty] at hne'
      simpa using hne'
    · rw [hpush]
      simp

theorem Sequence.contents_ofItems {items : List Sequenceable}
    (h : ∀ s ∈ items, s.expr.WellBuilt) :
    (ofItems items).value.toExpr.text.contents = items.flatMap (·.expr.text.contents) := by
  have halike := (ofItems_spec h).1.contents_eq
  rw [List.flatMap_singleton, List.flatMap_map] at halike
  exact halike

end PatternAlgebra
