import Mathlib.Data.List.SplitBy
import PatternAlgebra.Proofs.Sequence.Unmerging
/-!
# What is reported of a sequence

A run of raw items is collected while items are taken in, across the ends of nested sequences, and
it is settled when an item comes that is not raw, or at the end.  A report counts the items of the
run, in which a compound counts once, whatever it consists of.

Components and reports are both lists over the runs of the opened items.  An assembly settles one
run after another, and each becomes one component, and gives one report if it is merged.
-/

namespace PatternAlgebra

/-! ## Runs -/

namespace Expr

/-- Items in a row, divided into runs: raw neighbours are in one run, and an item that is not raw is
    in a run of its own. -/
def runs (items : List Expr) : List (List Expr) :=
  items.splitBy fun a b => a.isRawLike && b.isRawLike

/-- Raw items are all in one run. -/
theorem runs_of_raw {items : List Expr} (hne : items ≠ [])
    (hraw : ∀ e ∈ items, e.isRawLike = true) : runs items = [items] := by
  refine List.splitBy_of_isChain hne (List.Pairwise.isChain ?_)
  refine List.pairwise_of_forall_mem_list ?_
  intro a ha b hb
  rw [hraw a ha, hraw b hb]
  rfl

/-- An item that is not raw ends the run before it and is no part of the run after it. -/
theorem runs_append_cons {item : Expr} (h : item.isRawLike = false) (before after : List Expr) :
    runs (before ++ item :: after) = runs before ++ [item] :: runs after := by
  have hbefore : ∀ last ∈ before.getLast?, (last.isRawLike && item.isRawLike) = false := by
    intro last _
    rw [h, Bool.and_false]
  have hafter : ∀ last ∈ [item].getLast?, ∀ next ∈ after.head?,
      (last.isRawLike && next.isRawLike) = false := by
    intro last hlast next _
    have hlast : item = last := by simpa using hlast
    rw [← hlast, h, Bool.false_and]
  rw [runs, List.splitBy_append_cons after hbefore, ← List.singleton_append,
    List.splitBy_append hafter]
  rfl

/-- Two items are in one run only if they are raw. -/
theorem isRawLike_of_isChain {run : List Expr}
    (h : run.IsChain fun a b => (a.isRawLike && b.isRawLike) = true) (hseveral : 2 ≤ run.length) :
    ∀ e ∈ run, e.isRawLike = true := by
  induction run with
  | nil => exact absurd hseveral (by simp)
  | cons first rest ih =>
      cases rest with
      | nil => exact absurd hseveral (by simp)
      | cons second rest =>
          obtain ⟨hpair, htail⟩ := List.isChain_cons_cons.mp h
          obtain ⟨hfirst, hsecond⟩ := Bool.and_eq_true_iff.mp hpair
          intro e he
          rcases List.mem_cons.mp he with rfl | he
          · exact hfirst
          · cases rest with
            | nil => rwa [List.mem_singleton.mp he]
            | cons third rest => exact ih htail (by simp) e he

theorem isRawLike_of_mem_runs {items run : List Expr} (hrun : run ∈ runs items)
    (hseveral : 2 ≤ run.length) : ∀ e ∈ run, e.isRawLike = true :=
  isRawLike_of_isChain (List.isChain_of_mem_splitBy hrun) hseveral

end Expr

/-! ## Settling runs -/

namespace Assembly

/-- What becomes of a run: an item alone stays as it is, and two or more are merged. -/
def settledAs : List Expr → Expr
  | [item] => item
  | run => merged run

theorem settledAs_of_several {run : List Expr} (h : 2 ≤ run.length) :
    settledAs run = merged run := by
  match run, h with
  | _ :: _ :: _, _ => rfl

/-- What is reported of some runs: those of two or more items, with the number of the items. -/
def reports (runs : List (List Expr)) : List Event :=
  (runs.filter fun run => 2 ≤ run.length).map fun run => .mergingRun run.length

theorem reports_of_several {run : List Expr} (h : 2 ≤ run.length) :
    reports [run] = [.mergingRun run.length] := by
  have hkept : [run].filter (fun run => decide (2 ≤ run.length)) = [run] :=
    List.filter_cons_of_pos (decide_eq_true h)
  rw [reports, hkept, List.map_singleton]

/-- The second assembly comes from the first by settling these runs, one after another. -/
structure Settles (a : Assembly) (runs : List (List Expr)) (b : Assembly) : Prop where
  components_eq : b.components.toList = a.components.toList ++ runs.map settledAs
  events_eq : b.events.toList = a.events.toList ++ reports runs

theorem Settles.trans {a b c : Assembly} {xs ys : List (List Expr)} (h : Settles a xs b)
    (h' : Settles b ys c) : Settles a (xs ++ ys) c where
  components_eq := by
    rw [h'.components_eq, h.components_eq, List.map_append, List.append_assoc]
  events_eq := by
    rw [h'.events_eq, h.events_eq, reports, reports, reports, List.filter_append, List.map_append,
      List.append_assoc]

/-- Releasing settles the run, if there is one. -/
theorem settles_release {a : Assembly} (h : a.Sound) :
    Settles a (Expr.runs a.run.toList) a.release := by
  rcases release_cases a with ⟨hempty, hrelease⟩ | ⟨item, hrun, hrelease⟩ | ⟨hseveral, hrelease⟩
  · rw [hrelease, hempty]
    exact ⟨(List.append_nil _).symm, (List.append_nil _).symm⟩
  · rw [hrelease, hrun]
    exact ⟨Array.toList_push, (List.append_nil _).symm⟩
  · have hruns : Expr.runs a.run.toList = [a.run.toList] :=
      Expr.runs_of_raw (List.ne_nil_of_length_pos (by omega)) h.run_raw
    rw [hrelease, hruns]
    constructor
    case components_eq =>
      rw [Array.toList_push, List.map_singleton, settledAs_of_several hseveral]
    case events_eq => rw [Array.toList_push, reports_of_several hseveral]

/-- An item that is not raw settles the run before it, and then itself. -/
theorem settles_settle {a : Assembly} (h : a.Sound) (item : Expr) :
    Settles a (Expr.runs a.run.toList ++ [[item]]) (a.settle item) :=
  (settles_release h).trans ⟨Array.toList_push, (List.append_nil _).symm⟩

/-- All runs are settled in the end, of the items that were held back at the beginning and of those
    that are taken in. -/
theorem settles_pushAll {items : List Expr} (hsettled : ∀ e ∈ items, Settled e) {a : Assembly}
    (h : a.Sound) : Settles a (Expr.runs (a.run.toList ++ items)) (a.pushAll items).release := by
  induction items generalizing a with
  | nil =>
      rw [pushAll, List.append_nil]
      exact settles_release h
  | cons item items ih =>
      have hitem : Settled item := hsettled item (by simp)
      have hrest : ∀ e ∈ items, Settled e := fun e he => hsettled e (by simp [he])
      rw [pushAll, push_of_notSequence a hitem.notSequence]
      cases hraw : item.isRawLike with
      | true =>
          -- nothing is settled yet, and the run gets longer
          have hheld := ih hrest (takes_hold h hitem hraw).sound
          rw [hold, Array.toList_push, List.append_assoc, List.singleton_append] at hheld
          rw [if_pos rfl]
          exact ⟨hheld.components_eq, hheld.events_eq⟩
      | false =>
          -- the run ends here, and a new one starts
          obtain ⟨-, hrun, -⟩ := release_spec h
          have hafter := ih hrest (takes_settle h hitem hraw).sound
          have hempty : (a.settle item).run.toList = [] := congrArg Array.toList hrun
          rw [hempty, List.nil_append] at hafter
          rw [if_neg Bool.false_ne_true, Expr.runs_append_cons hraw, ← List.singleton_append,
            ← List.append_assoc]
          exact (settles_settle h item).trans hafter

end Assembly

/-! ## The sequence of some operands -/

/-- The components of a sequence and what is reported of it, over the runs of the opened items. -/
theorem Sequence.ofItems_settles {items : List Sequenceable} (h : ∀ s ∈ items, s.expr.WellBuilt) :
    (ofItems items).value.components
        = (Expr.runs (items.flatMap (·.expr.opened))).map Assembly.settledAs ∧
      (ofItems items).events = Assembly.reports (Expr.runs (items.flatMap (·.expr.opened))) := by
  have hsettles := Assembly.settles_pushAll (settled_of_mem_flatMap_opened h) Assembly.sound_empty
  have hopened : Assembly.pushAll {} (items.map Sequenceable.expr)
      = Assembly.pushAll {} (items.flatMap (·.expr.opened)) := by
    rw [Assembly.pushAll_eq_pushAll_opened, List.flatMap_map]
  constructor
  · rw [components_ofItems]
    exact hsettles.components_eq
  · show (Assembly.pushAll {} (items.map Sequenceable.expr)).release.events.toList = _
    rw [hopened]
    exact hsettles.events_eq

/-- A run of two or more items becomes one compound, with all that the items consist of. -/
theorem Assembly.settledAs_of_mem_runs {items run : List Expr}
    (h : ∀ e ∈ items, Assembly.Settled e) (hrun : run ∈ Expr.runs items)
    (hseveral : 2 ≤ run.length) :
    ∃ c : Compound, settledAs run = .raw (.compound c) ∧ c.atoms = run.flatMap Expr.atoms := by
  have hraw := Expr.isRawLike_of_mem_runs hrun hseveral
  have hwellBuilt : ∀ e ∈ run, e.WellBuilt := by
    intro e he
    refine (h e ?_).wellBuilt
    rw [← List.flatten_splitBy _ items]
    exact List.mem_flatten.mpr ⟨run, hrun, he⟩
  obtain ⟨-, hatoms, -⟩ := merged_spec hraw hwellBuilt
  exact ⟨_, settledAs_of_several hseveral, hatoms⟩

open Script Script.Eval Bracketing

namespace Bracketing

variable {ns : List Node} {ss : List Sequenceable}

theorem items_eq_of_places (h : List.Forall₂ Places ns ss) : items ns = ss := by
  induction h with
  | nil => rfl
  | @cons n s ns ss hs _ ih =>
      have hcons : items (n :: ns) = s :: items ns := List.filterMap_cons_some hs
      rw [hcons, ih]

theorem wellBuilt_of_places (h : List.Forall₂ Places ns ss) (hns : ∀ n ∈ ns, Constructible n) :
    ∀ s ∈ ss, s.expr.WellBuilt :=
  returns_mapM_convert (fun _ _ => returns_asSequenceable) (fun n hn => (hns n hn).wellBuilt)
    (returns_mapM_asSequenceable h)

end Bracketing

/-- **Merges are reported run by run.**  Open the operands that are sequences, and divide the items
    into runs.  Every call that makes the sequence of the operands reports one merge for each run of
    two or more items, in order and with the number of the items, and nothing else.  The components
    are what becomes of the runs, in the same order: a run that is reported is raw and becomes one
    compound of all that it consists of, and any other is an item that stays as it is. -/
theorem merges_reported_run_by_run {operands : List Node} (hseveral : 2 ≤ operands.length)
    (hoperands : ∀ n ∈ operands, Constructible n ∧ n.toSequenceable?.isSome) :
    let runs := Expr.runs ((items operands).flatMap (·.expr.opened))
    ∃ (q : Sequence) (events : List Event),
      (∀ arity, (arity = .pair → operands.length = 2) →
        ((Nary.sequence arity).build operands).Reports (.sequence q) events) ∧
      (∀ first second, operands = [first, second] →
        (Binary.followedBy.build first second).Reports (.sequence q) events) ∧
      events = (runs.filter fun run => 2 ≤ run.length).map (fun run => .mergingRun run.length) ∧
      (events.map fun event => (event.level, event.message))
        = ((runs.filter fun run => 2 ≤ run.length).map fun run =>
            (.trace, "merging " ++ toString run.length ++ " adjacent raw components")) ∧
      q.components = runs.map Assembly.settledAs ∧
      ∀ run ∈ runs, 2 ≤ run.length → (∀ item ∈ run, item.isRawLike = true) ∧
        ∃ c : Compound, Assembly.settledAs run = .raw (.compound c) ∧
          c.atoms = run.flatMap Expr.atoms := by
  intro runs
  obtain ⟨ss, hplaces⟩ := exists_places fun n hn => (hoperands n hn).2
  have hwellBuilt := wellBuilt_of_places hplaces fun n hn => (hoperands n hn).1
  have hruns : runs = Expr.runs (ss.flatMap (·.expr.opened)) := by
    rw [← items_eq_of_places hplaces]
  obtain ⟨hcomponents, hevents⟩ := Sequence.ofItems_settles hwellBuilt
  rw [← hruns] at hcomponents hevents
  refine ⟨(Sequence.ofItems ss).value, (Sequence.ofItems ss).events, ?_, ?_, hevents, ?_,
    hcomponents, ?_⟩
  · intro arity harity
    exact reports_sequence_ofItems hplaces hseveral harity
  · rintro first second rfl
    cases hplaces with
    | cons hs hrest =>
        cases hrest with
        | cons ht hrest =>
            cases hrest
            exact reports_followedBy hs ht
  · rw [hevents, Assembly.reports, List.map_map]
    rfl
  · intro run hrun hlong
    rw [hruns] at hrun
    exact ⟨Expr.isRawLike_of_mem_runs hrun hlong,
      Assembly.settledAs_of_mem_runs (settled_of_mem_flatMap_opened hwellBuilt) hrun hlong⟩

/-- A run across both ends of a nested sequence, one with a compound in it, and an item alone. -/
theorem merges_reported_run_by_run_across_ends :
    let inner : Sequence := (Sequence.pair (.ofChar 'b') (.ofCharClass .digit)).value
    let bounded : Raw := (Raw.entity .wordBoundary).append (.literal "d")
    let operands : List Node := [.literal "a", .sequence inner, .charLiteral 'c', .raw bounded,
      .entity .anyChar, .charClass .digit, .literal "e"]
    ∃ q : Sequence,
      ((Nary.sequence .chain).build operands).Reports (.sequence q)
        [.mergingRun 2, .mergingRun 3] ∧
      q.components.map Expr.isRawLike = [true, false, true, false, true] := by
  intro inner bounded operands
  have hb : Constructible (.charLiteral 'b') := .leaf (.charLiteral 'b') rfl
  have hdigit : Constructible (.charClass .digit) := .leaf (.predefined (.shorthand .digit)) rfl
  have hinner : Constructible (.sequence inner) := .binary .followedBy hb hdigit rfl
  have hboundary : Constructible (.entity .wordBoundary) := .leaf (.entity .wordBoundary) rfl
  have hd : Constructible (.literal "d") := .leaf (.literal "d") rfl
  have hbounded : Constructible (.raw bounded) := .binary .append hboundary hd rfl
  have hoperands : ∀ n ∈ operands, Constructible n ∧ n.toSequenceable?.isSome := by
    intro n hn
    have hn : n ∈ [Node.literal "a", .sequence inner, .charLiteral 'c', .raw bounded,
      .entity .anyChar, .charClass .digit, .literal "e"] := hn
    simp only [List.mem_cons, List.not_mem_nil, or_false] at hn
    rcases hn with rfl | rfl | rfl | rfl | rfl | rfl | rfl
    · exact ⟨.leaf (.literal "a") rfl, rfl⟩
    · exact ⟨hinner, rfl⟩
    · exact ⟨.leaf (.charLiteral 'c') rfl, rfl⟩
    · exact ⟨hbounded, rfl⟩
    · exact ⟨.leaf (.entity .anyChar) rfl, rfl⟩
    · exact ⟨hdigit, rfl⟩
    · exact ⟨.leaf (.literal "e") rfl, rfl⟩
  obtain ⟨q, events, hcalls, -, hevents, -, hcomponents, -⟩ :=
    merges_reported_run_by_run (by decide) hoperands
  have hchain : Arity.chain = .pair → operands.length = 2 := by
    intro hpair
    cases hpair
  have hreports := hcalls .chain hchain
  rw [hevents] at hreports
  refine ⟨q, hreports, ?_⟩
  rw [hcomponents]
  rfl

end PatternAlgebra
