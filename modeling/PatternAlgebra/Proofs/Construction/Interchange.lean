import PatternAlgebra.Proofs.Expr.Occurrences
import PatternAlgebra.Proofs.Expr.Shape
import PatternAlgebra.Proofs.Rope.Interchange
import PatternAlgebra.Proofs.Script.Constructible
/-!
# Equal nodes are written alike

Equal expressions are put together in the same way, except for their compounds, which list their
atoms and do not tell in which order they were joined.  The text of a compound is made of
characters that have all been stored somewhere, unlike the text of a group, so as long as words
hold the lengths of the compounds, the texts of equal expressions are interchangeable.  This is an
induction over the tree, and it does not matter how long the text of the whole is.
-/

namespace PatternAlgebra

open Rope (Interchangeable)

/-- Lists of the same images are related item by item, if items of the same image are. -/
theorem forall₂_of_map_eq {α β γ : Type} {f : α → γ} {g : β → γ} {R : α → β → Prop} {xs : List α}
    {ys : List β} (h : xs.map f = ys.map g)
    (hR : ∀ x ∈ xs, ∀ y ∈ ys, f x = g y → R x y) : List.Forall₂ R xs ys := by
  induction xs generalizing ys with
  | nil =>
      obtain rfl := List.map_eq_nil_iff.mp h.symm
      exact .nil
  | cons x xs ih =>
      cases ys with
      | nil => exact nomatch h
      | cons y ys =>
          obtain ⟨hhead, htail⟩ := List.cons.inj h
          refine .cons (hR x (by simp) y (by simp) hhead) (ih htail ?_)
          exact fun x' hx y' hy => hR x' (by simp [hx]) y' (by simp [hy])

namespace Profile

/-- Parts with interchangeable texts in the same places. -/
abbrev AllInterchangeable : List Profile → List Profile → Prop :=
  List.Forall₂ fun p q => Interchangeable p.text q.text

theorem interchangeable_concatenation {ps qs : List Profile} (h : AllInterchangeable ps qs) :
    Interchangeable (concatenation ps).text (concatenation qs).text := by
  suffices hfold : ∀ start start' : Rope, Interchangeable start start' →
      Interchangeable (ps.foldl (fun text part => text ++ part.text) start)
        (qs.foldl (fun text part => text ++ part.text) start') from
    hfold .empty .empty (.same .empty .empty rfl)
  induction h with
  | nil => exact fun _ _ hstart => hstart
  | cons hhead _ ih => exact fun _ _ hstart => ih _ _ (hstart.append hhead)

theorem interchangeable_alternation {ps qs : List Profile} (h : AllInterchangeable ps qs) :
    Interchangeable (alternation ps).text (alternation qs).text := by
  cases h with
  | nil => exact .same .empty .empty rfl
  | @cons p q ps qs hfirst hrest =>
      suffices hfold : ∀ start start' : Rope, Interchangeable start start' →
          Interchangeable (ps.foldl (fun text part => text ++ Rope.ofChar '|' ++ part.text) start)
            (qs.foldl (fun text part => text ++ Rope.ofChar '|' ++ part.text) start') from
        hfold p.text q.text hfirst
      have hbar := Rope.wellFormed_ofChar '|'
      induction hrest with
      | nil => exact fun _ _ hstart => hstart
      | cons hhead _ ih =>
          intro start start' hstart
          exact ih _ _ ((hstart.append (.same hbar hbar rfl)).append hhead)

end Profile

namespace Expr

/-- No compound in the expression has more characters than there are words. -/
def HasShortCompounds (e : Expr) : Prop :=
  ∀ c : Compound, (raw (.compound c)).OccursIn e → c.profile.text.contents.length < wordLimit

theorem HasShortCompounds.of_mem_subparts {e part : Expr} (h : e.HasShortCompounds)
    (hpart : part ∈ e.subparts) : part.HasShortCompounds :=
  fun c hc => h c (.inside hpart hc)

/-- A raw node stores right lengths, if it is no compound or a short one. -/
theorem wellFormed_text_raw {r : Raw} (h : r.Coherent) (hshort : (raw r).HasShortCompounds) :
    r.profile.text.WellFormed := by
  cases r with
  | atom a =>
      cases a with
      | entity e => exact Rope.wellFormed_ofString _
      | literal text => exact Rope.wellFormed_ofString _
  | compound c => exact h.text_wellSized (hshort c .self)

theorem atoms_eq_of_bare_eq {r s : Raw} (h : r.bare = s.bare) : r.atoms = s.atoms := by
  cases r with
  | atom a =>
      cases s with
      | atom b => exact congrArg Raw.atoms h
      | compound d => exact nomatch h
  | compound c =>
      cases s with
      | atom b => exact nomatch h
      | compound d =>
          have hbare : (⟨c.atoms, .blank⟩ : Compound) = ⟨d.atoms, .blank⟩ := Raw.compound.inj h
          exact (Compound.mk.inj hbare).1

/-- Raw nodes with the same atoms are written alike, if they are short. -/
theorem interchangeable_raw {r s : Raw} (hr : r.Coherent) (hs : s.Coherent) (h : r.bare = s.bare)
    (hshort : (raw r).HasShortCompounds) : Interchangeable r.profile.text s.profile.text := by
  have hcontents : r.profile.text.contents = s.profile.text.contents := by
    rw [hr.contents_eq, hs.contents_eq, atoms_eq_of_bare_eq h]
  have hwr := wellFormed_text_raw hr hshort
  have hws : s.profile.text.WellFormed := by
    cases r with
    | atom a =>
        cases s with
        | atom b => exact wellFormed_text_raw hs fun c hc => nomatch hc
        | compound d => exact nomatch h
    | compound c =>
        refine hs.text_wellSized ?_
        rw [← hcontents]
        exact hshort c .self
  exact .same hwr hws hcontents

/-- **Equal expressions have interchangeable texts.**  Both are put together from their parts in the
    same way, down to the compounds. -/
theorem WellBuilt.interchangeable {a b : Expr} (ha : a.WellBuilt) (hb : b.WellBuilt)
    (h : a.bare = b.bare) (hshort : a.HasShortCompounds) : Interchangeable a.text b.text := by
  induction ha generalizing b with
  | literal text =>
      cases hb with
      | literal text' =>
          obtain rfl := literal.inj h
          exact .same (Rope.wellFormed_ofString _) (Rope.wellFormed_ofString _) rfl
      | _ => exact nomatch h
  | charLiteral c =>
      cases hb with
      | charLiteral c' =>
          obtain rfl := charLiteral.inj h
          exact .same (Rope.wellFormed_ofString _) (Rope.wellFormed_ofString _) rfl
      | _ => exact nomatch h
  | raw coherent =>
      cases hb with
      | raw coherent' => exact interchangeable_raw coherent coherent' (raw.inj h) hshort
      | _ => exact nomatch h
  | adopted pattern =>
      cases hb with
      | adopted pattern' =>
          obtain rfl := adopted.inj h
          exact .same (Rope.wellFormed_ofString _) (Rope.wellFormed_ofString _) rfl
      | _ => exact nomatch h
  | charClass _ =>
      cases hb with
      | charClass _ =>
          obtain rfl := charClass.inj h
          exact .same (Rope.wellFormed_ofString _) (Rope.wellFormed_ofString _) rfl
      | _ => exact nomatch h
  | @sequence components _ _ _ _ _ ih =>
      cases hb with
      | @sequence components' _ _ _ _ hparts' =>
          have hbare : components.map bare = components'.map bare := by
            rw [← bareAll_eq_map, ← bareAll_eq_map]
            exact (sequence.inj h).1
          refine Profile.interchangeable_concatenation (List.forall₂_map_left_iff.mpr
            (List.forall₂_map_right_iff.mpr (forall₂_of_map_eq hbare ?_)))
          intro part hpart part' hpart' heq
          exact ih part hpart (hparts' part' hpart') heq (hshort.of_mem_subparts hpart)
      | _ => exact nomatch h
  | @alternation alternatives _ _ _ _ ih =>
      cases hb with
      | @alternation alternatives' _ _ _ hparts' =>
          have hbare : alternatives.map bare = alternatives'.map bare := by
            rw [← bareAll_eq_map, ← bareAll_eq_map]
            exact (alternation.inj h).1
          refine Profile.interchangeable_alternation (List.forall₂_map_left_iff.mpr
            (List.forall₂_map_right_iff.mpr (forall₂_of_map_eq hbare ?_)))
          intro part hpart part' hpart' heq
          exact ih part hpart (hparts' part' hpart') heq (hshort.of_mem_subparts hpart)
      | _ => exact nomatch h
  | @quantified _ quantifier mode _ _ ih =>
      cases hb with
      | quantified _ _ hbase' =>
          obtain ⟨hbase, rfl, rfl, -⟩ := quantified.inj h
          have hsuffix := Rope.wellFormed_ofString (quantifier.text ++ mode.suffix)
          refine (ih hbase' hbase (hshort.of_mem_subparts ?_)).append (.same hsuffix hsuffix rfl)
          exact List.mem_singleton.mpr rfl
      | _ => exact nomatch h
  | @group kind _ _ _ ih =>
      cases hb with
      | group _ hnested' =>
          obtain ⟨rfl, hnested, -⟩ := group.inj h
          have hopening := Rope.wellFormed_ofString kind.opening
          have hclosing := Rope.wellFormed_ofChar ')'
          have hinner := ih hnested' hnested
            (hshort.of_mem_subparts (List.mem_singleton.mpr rfl))
          exact (Interchangeable.append (.same hopening hopening rfl) hinner).append
            (.same hclosing hclosing rfl)
      | _ => exact nomatch h

/-- Equal expressions with short compounds are written alike, whatever is stored of them. -/
theorem WellBuilt.checkedRender_eq {a b : Expr} (ha : a.WellBuilt) (hb : b.WellBuilt)
    (h : (a == b) = true) (hshort : a.HasShortCompounds) : a.checkedRender = b.checkedRender :=
  (ha.interchangeable hb (beq_iff_bare_eq.mp h) hshort).checkedRender_eq

end Expr

/-! ## Nodes of every type -/

namespace Node.Content

/-- No compound in the content, nor the content itself, has more characters than there are words. -/
def HasShortCompounds : Content → Prop
  | expr e => e.HasShortCompounds
  | compound c => (Expr.raw (.compound c)).HasShortCompounds

theorem WellBuilt.checkedRender_eq {c d : Content} (hc : c.WellBuilt) (hd : d.WellBuilt)
    (h : (c == d) = true) (hshort : c.HasShortCompounds) :
    c.profile.text.checkedRender = d.profile.text.checkedRender := by
  cases c with
  | expr a =>
      cases d with
      | expr b => exact Expr.WellBuilt.checkedRender_eq hc hd h hshort
      | compound _ => exact nomatch h
  | compound a =>
      cases d with
      | expr _ => exact nomatch h
      | compound b =>
          have ha : (Expr.raw (.compound a)).WellBuilt := .raw hc
          have hb : (Expr.raw (.compound b)).WellBuilt := .raw hd
          exact ha.checkedRender_eq hb h hshort

end Node.Content

end PatternAlgebra
