import Mathlib.Data.Set.NAry
import PatternAlgebra.Proofs.Analysis.Lengths
import PatternAlgebra.Proofs.CharClass.Denotation
import PatternAlgebra.Proofs.Sequence.Unmerging
/-!
# The language of an expression

An expression matches texts, and while it does so its capturing groups pick out parts of them.
Which texts and which parts is given by its structure alone: parts in a row match one after
another, an alternation matches what one of its alternatives matches, and a repetition matches as
many times in a row as its quantifier allows.

Some constructs mean nothing without an engine.  It depends on the text around, on flags or on
backtracking what they match, or on a text from outside.  What an engine makes of these is left
open, and whatever is shown of languages holds for every engine.

The constructions rearrange their operands, and no language changes by it.  A sequence has the
language of its items one after another, and an alternation that of any of its items.
-/

namespace PatternAlgebra

/-! ## Matches -/

/-- A text that is matched, with the parts that groups have captured in it, in the order in which
    the groups open. -/
structure Match where
  text : List Char
  captures : List (List Char)

namespace Match

/-- A text in which nothing is captured. -/
def plain (text : List Char) : Match := ⟨text, []⟩

/-- One match after another. -/
def followedBy (m n : Match) : Match := ⟨m.text ++ n.text, m.captures ++ n.captures⟩

/-- A match inside a capturing group. -/
def captured (m : Match) : Match := ⟨m.text, m.text :: m.captures⟩

theorem followedBy_plain_nil (m : Match) : m.followedBy (plain []) = m := by
  simp [followedBy, plain]

theorem followedBy_assoc (l m n : Match) :
    (l.followedBy m).followedBy n = l.followedBy (m.followedBy n) := by
  simp [followedBy]

theorem plain_followedBy_plain (s t : List Char) :
    (plain s).followedBy (plain t) = plain (s ++ t) := rfl

end Match

/-- One match from each set, one after another. -/
def inRow : List (Set Match) → Set Match
  | [] => {.plain []}
  | s :: ss => Set.image2 Match.followedBy s (inRow ss)

theorem inRow_singleton (s : Set Match) : inRow [s] = s := by
  rw [inRow, inRow, Set.image2_singleton_right]
  simp only [Match.followedBy_plain_nil, Set.image_id']

theorem inRow_append (ss ts : List (Set Match)) :
    inRow (ss ++ ts) = Set.image2 Match.followedBy (inRow ss) (inRow ts) := by
  induction ss with
  | nil =>
      rw [List.nil_append, inRow, Set.image2_singleton_left]
      exact (Set.image_id' _).symm
  | cons s ss ih =>
      rw [List.cons_append, inRow, inRow, ih]
      exact (Set.image2_assoc Match.followedBy_assoc).symm

/-- Rows in a row are one row. -/
theorem inRow_flatMap {α β : Type} (items : List α) (parts : α → List β)
    (language : β → Set Match) :
    inRow ((items.flatMap parts).map language)
      = inRow (items.map fun a => inRow ((parts a).map language)) := by
  induction items with
  | nil => rfl
  | cons a items ih =>
      rw [List.flatMap_cons, List.map_append, inRow_append, ih, List.map_cons, inRow]

/-! ## Languages -/

/-- What a language leaves to the engine. -/
structure Engine extends Interpretation where
  /-- The texts that an entity matches. -/
  entity : Entity → Set (List Char)
  /-- The matches of a text from outside. -/
  adopted : String → Set Match
  /-- The matches of a group that does more than to keep its parts together or to capture. -/
  group : GroupKind → Set Match → Set Match
  /-- The matches of repetitions that give nothing back. -/
  possessive : Set Match → Set Match

/-- The matches of all allowed numbers of copies in a row. -/
def Quantifier.language (q : Quantifier) (base : Set Match) : Set Match :=
  {m | ∃ times, q.Allows times ∧ m ∈ inRow (List.replicate times base)}

/-- What the mode of a repetition does to its matches.  It makes no difference to them which are
    tried first. -/
def Mode.language (E : Engine) : Mode → Set Match → Set Match
  | greedy, repetitions => repetitions
  | reluctant, repetitions => repetitions
  | possessive, repetitions => E.possessive repetitions

/-- What a group makes of the matches of what it encloses. -/
def GroupKind.language (E : Engine) : GroupKind → Set Match → Set Match
  | capture, nested => Match.captured '' nested
  | nonCapturing, nested => nested
  | kind, nested => E.group kind nested

/-- The matches of an atom. -/
def RawAtom.language (E : Engine) : RawAtom → Set Match
  | entity e => Match.plain '' E.entity e
  | literal text => {.plain text.toList}

namespace Expr

variable {E : Engine}

mutual

/-- The matches of an expression. -/
def language (E : Engine) : Expr → Set Match
  | literal text => {.plain text.toList}
  | charLiteral c => {.plain [c]}
  | raw r => inRow (r.atoms.map (RawAtom.language E))
  | adopted pattern => E.adopted pattern
  | charClass k => (fun c => .plain [c]) '' k.denotes E.toInterpretation
  | sequence components _ => languageInRow E components
  | alternation alternatives _ => languageOfAny E alternatives
  | quantified base quantifier mode _ => mode.language E (quantifier.language (language E base))
  | group kind nested _ => kind.language E (language E nested)

/-- The matches of expressions one after another. -/
def languageInRow (E : Engine) : List Expr → Set Match
  | [] => {.plain []}
  | e :: es => Set.image2 Match.followedBy (language E e) (languageInRow E es)

/-- The matches of some of the expressions. -/
def languageOfAny (E : Engine) : List Expr → Set Match
  | [] => ∅
  | e :: es => language E e ∪ languageOfAny E es

end

theorem mem_languageOfAny {m : Match} {es : List Expr} :
    m ∈ languageOfAny E es ↔ ∃ e ∈ es, m ∈ language E e := by
  induction es with
  | nil => simp [languageOfAny]
  | cons e es ih =>
      rw [languageOfAny, Set.mem_union, ih]
      simp

/-- An expression matches a text in such a way that its groups capture some parts of it. -/
def Captures (E : Engine) (e : Expr) (text : String) (parts : List String) : Prop :=
  ⟨text.toList, parts.map String.toList⟩ ∈ e.language E

/-- An expression matches a text. -/
def Accepts (E : Engine) (e : Expr) (text : String) : Prop :=
  ∃ parts, e.Captures E text parts

/-! ## Rearranging leaves the language alone -/

theorem language_atom (a : RawAtom) : language E (raw (.atom a)) = a.language E :=
  inRow_singleton _

mutual

/-- An expression matches what it is made of, one after another. -/
theorem language_eq_unmerged : ∀ e : Expr,
    language E e = inRow (e.unmerged.map (language E))
  | literal text => by
      rw [unmerged, List.map_singleton, inRow_singleton]
      exact (language_atom (.literal text)).symm
  | charLiteral c => by
      rw [unmerged, List.map_singleton, inRow_singleton]
      refine Eq.trans ?_ (language_atom (.literal (String.singleton c))).symm
      rw [RawAtom.language, String.toList_singleton, language]
  | raw r => by
      rw [language, unmerged, List.map_map]
      congr 1
      exact List.map_congr_left fun a _ => (language_atom a).symm
  | sequence components _ => by
      rw [language, unmerged]
      exact languageInRow_eq_unmergedAll components
  | adopted _ => (inRow_singleton _).symm
  | charClass _ => (inRow_singleton _).symm
  | alternation _ _ => (inRow_singleton _).symm
  | quantified _ _ _ _ => (inRow_singleton _).symm
  | group _ _ _ => (inRow_singleton _).symm

theorem languageInRow_eq_unmergedAll : ∀ es : List Expr,
    languageInRow E es = inRow ((unmergedAll es).map (language E))
  | [] => rfl
  | e :: es => by
      rw [languageInRow, unmergedAll, List.map_append, inRow_append, ← language_eq_unmerged e,
        ← languageInRow_eq_unmergedAll es]

end

/-- The alternatives that an expression offers match what the expression does. -/
theorem languageOfAny_alternatives (e : Expr) :
    languageOfAny E e.alternatives = e.language E := by
  cases e with
  | alternation alternatives profile => rfl
  | _ => exact Set.union_empty _

end Expr

variable {E : Engine}

/-- A sequence matches its items one after another, however they have been merged. -/
theorem Sequence.language_ofItems {items : List Sequenceable}
    (h : ∀ s ∈ items, s.expr.WellBuilt) :
    (ofItems items).value.toExpr.language E = inRow (items.map (·.expr.language E)) := by
  -- merging puts other components in place of the items, but they come apart into the same atoms
  rw [Sequence.toExpr, Expr.language, Expr.languageInRow_eq_unmergedAll,
    Expr.unmergedAll_eq_flatMap, flatMap_unmerged_ofItems h, inRow_flatMap]
  congr 1
  exact List.map_congr_left fun s _ => (Expr.language_eq_unmerged s.expr).symm

/-- An alternation matches what one of its items matches, however these have been spliced. -/
theorem Alternation.mem_language_ofItems {items : List Alternative} {m : Match} :
    m ∈ (ofItems items).toExpr.language E ↔ ∃ a ∈ items, m ∈ a.expr.language E := by
  rw [Alternation.toExpr, Expr.language, Expr.mem_languageOfAny]
  constructor
  · rintro ⟨e, he, hm⟩
    obtain ⟨a, ha, hmem⟩ := List.mem_flatMap.mp he
    refine ⟨a, ha, ?_⟩
    rw [← Expr.languageOfAny_alternatives]
    exact Expr.mem_languageOfAny.mpr ⟨e, hmem, hm⟩
  · rintro ⟨a, ha, hm⟩
    rw [← Expr.languageOfAny_alternatives] at hm
    obtain ⟨e, he, hm⟩ := Expr.mem_languageOfAny.mp hm
    exact ⟨e, List.mem_flatMap.mpr ⟨a, ha, he⟩, hm⟩

end PatternAlgebra
