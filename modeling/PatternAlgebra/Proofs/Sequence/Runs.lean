import PatternAlgebra.Proofs.Construction.Sequences
import PatternAlgebra.Proofs.Expr.Shape
/-!
# Merging runs

What the assembly of a sequence does to a row of items is, up to stored profiles, a fold from the
right: a raw item in front of a raw one is fused with it, and any other item is put in front as it
is.  Fusing is associative, since a compound keeps nothing but its atoms.  So part of a row may be
merged before the whole row is, and the outcome is the same.
-/

namespace PatternAlgebra

namespace Expr

@[simp] theorem isRawLike_bare (e : Expr) : e.bare.isRawLike = e.isRawLike := by
  cases e <;> rfl

@[simp] theorem atoms_bare (e : Expr) : e.bare.atoms = e.atoms := by
  cases e with
  | raw r => cases r <;> rfl
  | _ => rfl

/-! ## Gluing -/

/-- The compound of two raw items, without its profile. -/
def fuse (a b : Expr) : Expr := .raw (.compound ⟨a.atoms ++ b.atoms, .blank⟩)

/-- A row with one more item in front, fused with the first one if both are raw. -/
def glue (item : Expr) : List Expr → List Expr
  | [] => [item]
  | next :: rest =>
    if item.isRawLike && next.isRawLike then fuse item next :: rest else item :: next :: rest

/-- A row with every run of raw items fused. -/
def mergeRuns (items : List Expr) : List Expr := items.foldr glue []

theorem glue_of_notRaw {item : Expr} (h : item.isRawLike = false) (rest : List Expr) :
    glue item rest = item :: rest := by
  cases rest with
  | nil => rfl
  | cons next rest => rw [glue, h, Bool.false_and, if_neg Bool.false_ne_true]

theorem glue_cons_of_notRaw (item : Expr) {next : Expr} (h : next.isRawLike = false)
    (rest : List Expr) : glue item (next :: rest) = item :: next :: rest := by
  rw [glue, h, Bool.and_false, if_neg Bool.false_ne_true]

theorem glue_cons_of_raw {item next : Expr} (h : item.isRawLike = true)
    (hnext : next.isRawLike = true) (rest : List Expr) :
    glue item (next :: rest) = fuse item next :: rest := by
  rw [glue, h, hnext, Bool.and_self, if_pos rfl]

/-- Fusing first and then gluing is gluing one after the other. -/
theorem glue_fuse {a b : Expr} (ha : a.isRawLike = true) (hb : b.isRawLike = true)
    (rest : List Expr) : glue (fuse a b) rest = glue a (glue b rest) := by
  cases rest with
  | nil => exact (glue_cons_of_raw ha hb []).symm
  | cons next rest =>
      cases hnext : next.isRawLike with
      | false =>
          rw [glue_cons_of_notRaw _ hnext, glue_cons_of_notRaw _ hnext, glue_cons_of_raw ha hb]
      | true =>
          have hfused : (fuse b next).isRawLike = true := rfl
          rw [glue_cons_of_raw rfl hnext, glue_cons_of_raw hb hnext, glue_cons_of_raw ha hfused]
          -- both sides list the atoms of all three
          show raw (.compound ⟨a.atoms ++ b.atoms ++ next.atoms, .blank⟩) :: rest
            = raw (.compound ⟨a.atoms ++ (b.atoms ++ next.atoms), .blank⟩) :: rest
          rw [List.append_assoc]

/-- Gluing one item more to a merged row that goes on. -/
theorem foldr_glue_glue (item : Expr) (merged rest : List Expr) :
    (glue item merged).foldr glue rest = glue item (merged.foldr glue rest) := by
  cases merged with
  | nil => rfl
  | cons next merged =>
      cases hitem : item.isRawLike with
      | false => rw [glue_of_notRaw hitem, List.foldr_cons]
      | true =>
          cases hnext : next.isRawLike with
          | false => rw [glue_cons_of_notRaw item hnext, List.foldr_cons]
          | true =>
              rw [glue_cons_of_raw hitem hnext, List.foldr_cons, List.foldr_cons,
                glue_fuse hitem hnext]

/-- What is glued in front of a row may be merged before. -/
theorem foldr_glue_mergeRuns (items rest : List Expr) :
    (mergeRuns items).foldr glue rest = items.foldr glue rest := by
  induction items with
  | nil => rfl
  | cons item items ih =>
      show (glue item (mergeRuns items)).foldr glue rest = glue item (items.foldr glue rest)
      rw [foldr_glue_glue, ih]

/-- An item that is not raw keeps what stands before it apart from what comes after it. -/
theorem glue_append_cons {item : Expr} (h : item.isRawLike = false) (first : Expr)
    (before after : List Expr) :
    glue first (before ++ item :: after) = glue first before ++ item :: after := by
  cases before with
  | nil => exact glue_cons_of_notRaw first h after
  | cons next before =>
      rw [List.cons_append, glue, glue]
      by_cases hraw : (first.isRawLike && next.isRawLike) = true
      · rw [if_pos hraw, if_pos hraw]
        rfl
      · rw [if_neg hraw, if_neg hraw]
        rfl

/-- A run that an item follows which is not raw is merged for itself. -/
theorem mergeRuns_append_cons {item : Expr} (h : item.isRawLike = false)
    (before after : List Expr) :
    mergeRuns (before ++ item :: after) = mergeRuns before ++ item :: mergeRuns after := by
  induction before with
  | nil => exact glue_of_notRaw h (mergeRuns after)
  | cons first before ih =>
      show glue first (mergeRuns (before ++ item :: after))
        = glue first (mergeRuns before) ++ item :: mergeRuns after
      rw [ih, glue_append_cons h]

/-- A run becomes one raw item, which has all the atoms. -/
theorem mergeRuns_of_raw : ∀ items : List Expr, items ≠ [] → (∀ e ∈ items, e.isRawLike = true) →
    ∃ e, mergeRuns items = [e] ∧ e.isRawLike = true ∧ e.atoms = items.flatMap atoms := by
  intro items
  induction items with
  | nil => exact fun hne => absurd rfl hne
  | cons item items ih =>
      intro _ hraw
      have hitem : item.isRawLike = true := hraw item (by simp)
      by_cases hnil : items = []
      · subst hnil
        exact ⟨item, rfl, hitem, by simp⟩
      · obtain ⟨e, hmerged, he, hatoms⟩ := ih hnil fun d hd => hraw d (by simp [hd])
        refine ⟨fuse item e, ?_, rfl, ?_⟩
        · show glue item (mergeRuns items) = _
          rw [hmerged, glue_cons_of_raw hitem he]
        · show item.atoms ++ e.atoms = _
          rw [hatoms, List.flatMap_cons]

/-- A run of at least two items becomes the compound of the atoms. -/
theorem mergeRuns_of_several {items : List Expr} (hseveral : 2 ≤ items.length)
    (hraw : ∀ e ∈ items, e.isRawLike = true) :
    mergeRuns items = [raw (.compound ⟨items.flatMap atoms, .blank⟩)] := by
  match items, hseveral with
  | first :: second :: rest, _ =>
      obtain ⟨e, hmerged, he, hatoms⟩ :=
        mergeRuns_of_raw (second :: rest) (List.cons_ne_nil _ _) fun d hd => hraw d (by simp [hd])
      show glue first (mergeRuns (second :: rest)) = _
      rw [hmerged, glue_cons_of_raw (hraw first (by simp)) he, fuse, hatoms, ← List.flatMap_cons]

/-- The components that an item brings into a sequence. -/
def opened : Expr → List Expr
  | .sequence components _ => components
  | e => [e]

end Expr

/-! ## What an assembly does -/

namespace Assembly

theorem pushAll_append (a : Assembly) (xs ys : List Expr) :
    a.pushAll (xs ++ ys) = (a.pushAll xs).pushAll ys := by
  induction xs generalizing a with
  | nil => rw [List.nil_append, pushAll]
  | cons x xs ih => rw [List.cons_append, pushAll, pushAll, ih]

theorem push_eq_pushAll_opened (a : Assembly) (item : Expr) :
    a.push item = a.pushAll item.opened := by
  cases item with
  | sequence components profile => rw [push, Expr.opened]
  | _ =>
      show a.push _ = a.pushAll [_]
      rw [pushAll, pushAll]

/-- Sequences may be opened before they are taken in. -/
theorem pushAll_eq_pushAll_opened (a : Assembly) (items : List Expr) :
    a.pushAll items = a.pushAll (items.flatMap Expr.opened) := by
  induction items generalizing a with
  | nil => rfl
  | cons item items ih =>
      rw [pushAll, List.flatMap_cons, pushAll_append, ← push_eq_pushAll_opened, ih]

/-- Releasing the run settles what merging makes of it. -/
theorem bare_release {a : Assembly} (h : a.Sound) :
    a.release.components.toList.map Expr.bare
      = a.components.toList.map Expr.bare ++ Expr.mergeRuns (a.run.toList.map Expr.bare) := by
  rcases release_cases a with ⟨hempty, hrelease⟩ | ⟨item, hrun, hrelease⟩ | ⟨hseveral, hrelease⟩
  · rw [hrelease, hempty]
    exact (List.append_nil _).symm
  · rw [hrelease, hrun, Array.toList_push, List.map_append]
    rfl
  · have hraw : ∀ e ∈ a.run.toList.map Expr.bare, e.isRawLike = true := by
      intro e he
      obtain ⟨d, hd, rfl⟩ := List.mem_map.mp he
      rw [Expr.isRawLike_bare]
      exact h.run_raw d hd
    obtain ⟨-, hatoms, -⟩ := merged_spec h.run_raw fun e he => (h.run_settled e he).wellBuilt
    have hmerged : (merged a.run.toList).bare
        = .raw (.compound ⟨(merged a.run.toList).atoms, .blank⟩) := rfl
    rw [hrelease, Array.toList_push, List.map_append,
      Expr.mergeRuns_of_several (by rwa [List.length_map]) hraw, List.flatMap_map,
      List.map_singleton, hmerged, hatoms]
    simp only [Expr.atoms_bare]

/-- After some items are taken in, the settled components are those from before, and what merging
    makes of the run and the items. -/
theorem bare_release_pushAll : ∀ (items : List Expr) (a : Assembly), a.Sound →
    (∀ e ∈ items, Settled e) →
    (a.pushAll items).release.components.toList.map Expr.bare
      = a.components.toList.map Expr.bare
        ++ Expr.mergeRuns ((a.run.toList ++ items).map Expr.bare) := by
  intro items
  induction items with
  | nil =>
      intro a h _
      rw [pushAll, List.append_nil]
      exact bare_release h
  | cons item items ih =>
      intro a h hsettled
      have hitem := hsettled item (by simp)
      have hrest : ∀ e ∈ items, Settled e := fun e he => hsettled e (by simp [he])
      rw [pushAll, push_of_notSequence a hitem.notSequence]
      cases hraw : item.isRawLike with
      | true =>
          rw [if_pos rfl, ih _ (takes_hold h hitem hraw).sound hrest]
          simp [hold]
      | false =>
          -- the run ends here, and a new one starts
          obtain ⟨-, hrun, -⟩ := release_spec h
          have hsettle : (a.settle item).components = a.release.components.push item := rfl
          have hempty : (a.settle item).run = #[] := hrun
          have hbare : item.bare.isRawLike = false := by rw [Expr.isRawLike_bare, hraw]
          have hsplit : (a.run.toList ++ item :: items).map Expr.bare
              = a.run.toList.map Expr.bare ++ item.bare :: items.map Expr.bare := by simp
          rw [if_neg Bool.false_ne_true, ih _ (takes_settle h hitem hraw).sound hrest, hsettle,
            hempty, Array.toList_push, List.map_append, bare_release h, hsplit,
            Expr.mergeRuns_append_cons hbare]
          simp

end Assembly

/-- Opening a well-built item gives components that may be settled. -/
theorem settled_of_mem_opened {e c : Expr} (h : e.WellBuilt) (hseq : e.isSequenceable = true)
    (hc : c ∈ e.opened) : Assembly.Settled c := by
  cases hs : e.isSequence with
  | false =>
      have hself : e.opened = [e] := by
        cases e <;> first | rfl | exact absurd hs (by simp [Expr.isSequence])
      rw [hself] at hc
      obtain rfl := List.mem_singleton.mp hc
      exact ⟨h, hseq, hs⟩
  | true =>
      obtain ⟨components, rfl, -, hsettled⟩ := Assembly.eq_ofComponents_of_isSequence h hs
      exact hsettled c hc

theorem settled_of_mem_flatMap_opened {items : List Sequenceable}
    (h : ∀ s ∈ items, s.expr.WellBuilt) :
    ∀ c ∈ items.flatMap (·.expr.opened), Assembly.Settled c := by
  intro c hc
  obtain ⟨s, hs, hc⟩ := List.mem_flatMap.mp hc
  exact settled_of_mem_opened (h s hs) s.allowed hc

/-- The sequences among the items may be opened before anything is taken in. -/
theorem Sequence.components_ofItems (items : List Sequenceable) :
    (ofItems items).value.components
      = (Assembly.pushAll {} (items.flatMap (·.expr.opened))).release.components.toList := by
  show (Assembly.pushAll {} (items.map Sequenceable.expr)).release.components.toList = _
  rw [Assembly.pushAll_eq_pushAll_opened, List.flatMap_map]

/-- The components of a sequence are, up to profiles, what merging makes of its items once the
    sequences among them are opened. -/
theorem Sequence.bare_components_ofItems {items : List Sequenceable}
    (h : ∀ s ∈ items, s.expr.WellBuilt) :
    (ofItems items).value.components.map Expr.bare
      = Expr.mergeRuns ((items.flatMap (·.expr.opened)).map Expr.bare) := by
  rw [components_ofItems, Assembly.bare_release_pushAll _ _ Assembly.sound_empty
    (settled_of_mem_flatMap_opened h)]
  rfl

end PatternAlgebra
