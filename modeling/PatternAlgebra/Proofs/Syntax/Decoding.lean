import PatternAlgebra.Proofs.Script.Constructible
import PatternAlgebra.Proofs.Syntax.Characters
/-!
# Decoding escaped text

An engine takes escaped text one character at a time: a backslash goes with what comes after it,
and every other character stands for itself unless it has a meaning.  Decoded in this way, an
escaped text gives back its characters and nothing of what stands behind it, whatever that is.

So escaped texts may be put side by side without a mark between them.  However literals and single
characters are put together, the pattern decodes to their texts in order.
-/

namespace PatternAlgebra.Syntax

/-! ## The decoder -/

/-- The control character that has the letter as its escape. -/
def controlOf? : Char → Option Char
  | 'n' => some '\n'
  | 't' => some '\t'
  | 'r' => some '\r'
  | 'f' => some '\x0c'
  | 'a' => some '\x07'
  | 'e' => some '\x1b'
  | _ => none

/-- The first character of an escaped text, and the text behind it. -/
def decodeChar : List Char → Option (Char × List Char)
  | '\\' :: '0' :: text => readOctal text
  | '\\' :: c :: text =>
    if c ∈ needsEscape.toList then some (c, text) else (controlOf? c).map (·, text)
  | c :: text => if c ∈ needsEscape.toList then none else some (c, text)
  | [] => none

/-- So many characters of an escaped text, and the text behind them. -/
def decodeChars : Nat → List Char → Option (List Char × List Char)
  | 0, text => some ([], text)
  | count + 1, text =>
    match decodeChar text with
    | none => none
    | some (c, rest) => (decodeChars count rest).map (Prod.map (c :: ·) id)

theorem length_le_of_readOctal {text rest : List Char} {c : Char}
    (h : readOctal text = some (c, rest)) : rest.length ≤ text.length := by
  rw [readOctal] at h
  split at h
  · cases h
  · obtain ⟨-, rfl⟩ := Prod.mk.inj (Option.some.inj h)
    rw [List.length_drop]
    exact Nat.sub_le _ _

/-- A character takes up some of the text. -/
theorem length_lt_of_decodeChar {text rest : List Char} {c : Char}
    (h : decodeChar text = some (c, rest)) : rest.length < text.length := by
  unfold decodeChar at h
  split at h
  · have hle := length_le_of_readOctal h
    rw [List.length_cons, List.length_cons]
    omega
  · rename_i d text _
    rw [List.length_cons, List.length_cons]
    split at h
    · obtain ⟨-, rfl⟩ := Prod.mk.inj (Option.some.inj h)
      omega
    · obtain ⟨_, -, heq⟩ := Option.map_eq_some_iff.mp h
      obtain ⟨-, rfl⟩ := Prod.mk.inj heq
      omega
  · split at h
    · exact nomatch h
    · obtain ⟨-, rfl⟩ := Prod.mk.inj (Option.some.inj h)
      exact Nat.lt_succ_self _
  · exact nomatch h

/-- All characters of an escaped text. -/
def decodeAll (text : List Char) : Option (List Char) :=
  if text.isEmpty then some []
  else
    match h : decodeChar text with
    | none => none
    | some (c, rest) =>
      have := length_lt_of_decodeChar h
      (decodeAll rest).map (c :: ·)
termination_by text.length

/-- The text that an escaped text stands for. -/
def decode (pattern : String) : Option String := (decodeAll pattern.toList).map String.ofList

/-! ## Escaped text decodes -/

/-- A written character decodes to itself, and what follows is left over. -/
theorem decodeChar_escapedBefore (c : Char) {next : Option Char} {rest : List Char}
    (hfollows : Follows next rest) :
    decodeChar (escapedBefore c next ++ rest) = some (c, rest) := by
  rw [escapedBefore]
  split
  · -- with all its digits, NUL takes in no more
    rename_i hnul
    rw [hnul.1]
    rfl
  · rename_i hnul
    split
    · rename_i hc
      have hdigit : c ≠ '0' := by
        rintro rfl
        exact absurd hc (by decide)
      show decodeChar ('\\' :: c :: rest) = _
      rw [decodeChar]
      · exact if_pos hc
      · intro heq
        exact hdigit heq
    · rename_i hc
      rw [controlEscape?.eq_def]
      split
      · rfl
      · rfl
      · rfl
      · rfl
      · rfl
      · rfl
      · -- with one digit only, the next character must not be a digit
        show readOctal ('0' :: rest) = _
        have hsafe : shortNulIsSafe next = true := by
          simpa using hnul
        exact readOctal_short (hfollows hsafe)
      · -- no backslash, so the character is none of those with a meaning
        show decodeChar (c :: rest) = _
        have hbackslash : c ≠ '\\' := by
          rintro rfl
          exact hc (by decide)
        rw [decodeChar]
        · exact if_neg hc
        · rintro _ rfl
          exact absurd rfl hbackslash
        · rintro _ _ rfl
          exact absurd rfl hbackslash

/-- As many characters as have been escaped are decoded, up to where other text begins. -/
theorem decodeChars_escapeChars (chars rest : List Char) :
    decodeChars chars.length (escapeChars chars ++ rest) = some (chars, rest) := by
  induction chars with
  | nil => rfl
  | cons c chars ih =>
      rw [escapeChars, List.append_assoc, List.length_cons, decodeChars,
        decodeChar_escapedBefore c (follows_escapeChars chars rest)]
      show Option.map _ (decodeChars chars.length (escapeChars chars ++ rest)) = _
      rw [ih]
      rfl

theorem decodeAll_of_decodeChar {text rest : List Char} {c : Char}
    (h : decodeChar text = some (c, rest)) : decodeAll text = (decodeAll rest).map (c :: ·) := by
  have hne : ¬ text.isEmpty = true := by
    intro hempty
    obtain rfl := List.isEmpty_iff.mp hempty
    exact nomatch h
  rw [decodeAll, if_neg hne]
  split
  · rename_i hnone
    exact nomatch hnone.symm.trans h
  · rename_i hsome
    obtain ⟨rfl, rfl⟩ := Prod.mk.inj (Option.some.inj (hsome.symm.trans h))
    rfl

/-- A text that decodes begins with a character that decodes. -/
theorem exists_decodeChar_of_decodeAll {text chars : List Char} (hne : text ≠ [])
    (h : decodeAll text = some chars) :
    ∃ c rest tail, decodeChar text = some (c, rest) ∧ decodeAll rest = some tail ∧
      chars = c :: tail := by
  cases hchar : decodeChar text with
  | none =>
      rw [decodeAll, if_neg (by simpa using hne)] at h
      split at h
      · exact nomatch h
      · rename_i hsome
        exact nomatch hchar.symm.trans hsome
  | some first =>
      rw [decodeAll_of_decodeChar hchar] at h
      obtain ⟨tail, htail, rfl⟩ := Option.map_eq_some_iff.mp h
      exact ⟨first.1, first.2, tail, rfl, htail, rfl⟩

/-- What is decoded first comes first. -/
theorem decodeAll_of_decodeChars {count : Nat} {text chars rest : List Char}
    (h : decodeChars count text = some (chars, rest)) :
    decodeAll text = (decodeAll rest).map (chars ++ ·) := by
  induction count generalizing text chars with
  | zero =>
      obtain ⟨rfl, rfl⟩ := Prod.mk.inj (Option.some.inj h)
      show decodeAll text = (decodeAll text).map id
      exact Option.map_id_apply.symm
  | succ count ih =>
      rw [decodeChars] at h
      split at h
      · exact nomatch h
      · rename_i c next hc
        obtain ⟨⟨tail, rest'⟩, htail, heq⟩ := Option.map_eq_some_iff.mp h
        obtain ⟨rfl, rfl⟩ := Prod.mk.inj heq
        rw [decodeAll_of_decodeChar hc, ih htail, Option.map_map]
        rfl

/-- The decoder goes on behind an escaped text as if there had been none. -/
theorem decodeAll_escapeChars (chars rest : List Char) :
    decodeAll (escapeChars chars ++ rest) = (decodeAll rest).map (chars ++ ·) :=
  decodeAll_of_decodeChars (decodeChars_escapeChars chars rest)

theorem decodeAll_nil : decodeAll [] = some [] := by
  rw [decodeAll]
  rfl

/-- Escaped texts side by side decode to the texts in order. -/
theorem decodeAll_flatMap_escapeChars (texts : List String) :
    decodeAll (texts.flatMap fun text => escapeChars text.toList)
      = some (texts.flatMap String.toList) := by
  induction texts with
  | nil => exact decodeAll_nil
  | cons text texts ih =>
      rw [List.flatMap_cons, List.flatMap_cons, decodeAll_escapeChars, ih]
      rfl

/-! ## Nodes made of literals -/

open Script Script.Eval

/-- The conversions, which make a node of another type out of a node and nothing else. -/
def isConversion : Unary → Bool
  | .toLiteral => true
  | .toRaw => true
  | .toExpr => true
  | .toQuantifiable => true
  | .toSequenceable => true
  | .toAlternative => true
  | .placed => true
  | .unwrap => true
  | .unwrapRaw => true
  | .asRaw => true
  | _ => false

/-- A node that is made of literals and single characters alone, with their texts in the order in
    which they were put together. -/
inductive Spells : Node → List String → Prop where
  | literal (text : String) : Spells (.literal text) [text]
  | charLiteral (c : Char) : Spells (.charLiteral c) [String.singleton c]
  | convert {op : Unary} (conversion : isConversion op = true) {a n : Node} {texts : List String}
      (operand : Spells a texts) (value : (op.build a).Returns n) : Spells n texts
  | join {op : Binary} (joins : op = .append ∨ op = .followedBy) {a b n : Node}
      {texts texts' : List String} (first : Spells a texts) (second : Spells b texts')
      (value : (op.build a b).Returns n) : Spells n (texts ++ texts')
  /-- A compound or a sequence of parts that are listed with their texts. -/
  | joinAll {op : Nary} (joins : op = .compound ∨ op = .sequence .chain ∨ op = .sequence .list)
      {parts : List (Node × List String)} {n : Node} (operands : ∀ p ∈ parts, Spells p.1 p.2)
      (value : (op.build (parts.map Prod.fst)).Returns n) : Spells n (parts.flatMap Prod.snd)

/-- A conversion keeps the text and the analysis. -/
theorem profile_of_conversion {op : Unary} (hop : isConversion op = true) {a n : Node}
    (h : (op.build a).Returns n) : n.profile = a.profile := by
  cases op with
  | toLiteral =>
      obtain ⟨text, htext, rfl⟩ := returns_map.mp h
      exact Node.profile_of_toLiteral? (returns_require.mp htext)
  | toRaw =>
      obtain ⟨r, hr, rfl⟩ := returns_map.mp h
      exact Node.profile_of_toRaw? (returns_require.mp hr)
  | toExpr =>
      obtain ⟨e, he, rfl⟩ := returns_map.mp h
      exact (Node.profile_of_content (Node.content_of_toExpr? (returns_require.mp he))).symm
  | toQuantifiable =>
      obtain ⟨q, hq, rfl⟩ := returns_map.mp h
      exact (Node.profile_of_content (Node.content_of_toQuantifiable? (returns_require.mp hq))).symm
  | toSequenceable =>
      obtain ⟨s, hs, rfl⟩ := returns_map.mp h
      exact (Node.profile_of_content (Node.content_of_toSequenceable? (returns_require.mp hs))).symm
  | toAlternative =>
      obtain ⟨b, hb, rfl⟩ := returns_map.mp h
      exact (Node.profile_of_content (Node.content_of_toAlternative? (returns_require.mp hb))).symm
  | placed =>
      obtain ⟨e, he, rfl⟩ := returns_map.mp h
      exact (Node.profile_of_content (Node.content_of_placed? (returns_require.mp he))).symm
  | unwrap =>
      obtain ⟨e, he, rfl⟩ := returns_map.mp h
      rw [Node.profile_of_content (Node.content_of_toExpr? (returns_require.mp he))]
      exact Node.profile_of_content (Node.content_ofExpr e)
  | unwrapRaw =>
      obtain ⟨r, hr, rfl⟩ := returns_map.mp h
      rw [Node.profile_ofRaw]
      exact Node.profile_of_toRaw? (returns_require.mp hr)
  | asRaw =>
      obtain ⟨e, he, h⟩ := returns_bind.mp h
      obtain ⟨r, hr, rfl⟩ := returns_map.mp h
      rw [Node.profile_of_content (Node.content_of_toExpr? (returns_require.mp he))]
      exact Expr.profile_of_asRaw? (returns_require.mp hr)
  | _ => exact nomatch hop

/-- The text of a compound of some parts. -/
theorem contents_compound {parts : List Node} {raws : List Raw}
    (h : (parts.mapM asRaw).Returns raws) :
    (Compound.ofParts raws).profile.text.contents = parts.flatMap (·.profile.text.contents) := by
  show (Profile.concatenation (raws.map Raw.profile)).text.contents = _
  rw [Profile.contents_concatenation, List.flatMap_map]
  refine (flatMap_eq_of_forall₂ ((returns_mapM.mp h).imp fun p r hr => ?_)).symm
  rw [Node.profile_of_toRaw? (returns_require.mp hr)]

/-- The text of a sequence of some items. -/
theorem contents_sequence {parts : List Node} {items : List Sequenceable}
    (hparts : ∀ p ∈ parts, p.WellBuilt) (h : (parts.mapM asSequenceable).Returns items) :
    (Sequence.ofItems items).value.toExpr.text.contents
      = parts.flatMap (·.profile.text.contents) := by
  have hitems : ∀ s ∈ items, s.expr.WellBuilt :=
    returns_mapM_convert (fun _ _ => returns_asSequenceable) hparts h
  rw [Sequence.contents_ofItems hitems]
  refine (flatMap_eq_of_forall₂ ((returns_mapM.mp h).imp fun p s hs => ?_)).symm
  rw [Node.profile_of_content (Node.content_of_toSequenceable? (returns_require.mp hs))]
  rfl

/-- A node has the text of others in a row. -/
structure Joins (n : Node) (parts : List Node) : Prop where
  wellBuilt : n.WellBuilt
  contents_eq : n.profile.text.contents = parts.flatMap (·.profile.text.contents)

theorem joins_of_binary {op : Binary} (hop : op = .append ∨ op = .followedBy) {a b n : Node}
    (ha : a.WellBuilt) (hb : b.WellBuilt) (h : (op.build a b).Returns n) : Joins n [a, b] := by
  refine ⟨wellBuilt_of_binary ha hb h, ?_⟩
  rcases hop with rfl | rfl
  · obtain ⟨first, hfirst, h⟩ := returns_bind.mp h
    obtain ⟨second, hsecond, h⟩ := returns_bind.mp h
    obtain rfl := returns_pure.mp h
    exact contents_compound (returns_mapM.mpr (.cons hfirst (.cons hsecond .nil)))
  · obtain ⟨first, hfirst, h⟩ := returns_bind.mp h
    obtain ⟨second, hsecond, h⟩ := returns_bind.mp h
    obtain ⟨s, hs, rfl⟩ := returns_map.mp h
    obtain rfl := returns_logging.mp hs
    have hparts : ∀ p ∈ [a, b], p.WellBuilt := by simp [ha, hb]
    exact contents_sequence hparts (returns_mapM.mpr (.cons hfirst (.cons hsecond .nil)))

/-- A chain and a list of items become the same sequence. -/
theorem eq_ofItems_of_sequenceOf {arity : Arity} (harity : arity = .chain ∨ arity = .list)
    {items : List Sequenceable} {s : Sequence} (h : (sequenceOf arity items).Returns s) :
    s = (Sequence.ofItems items).value := by
  obtain ⟨-, rfl⟩ := returns_sequenceOf.mp h
  rcases harity with rfl | rfl
  · rfl
  · rfl

theorem joins_of_nary {op : Nary}
    (hop : op = .compound ∨ op = .sequence .chain ∨ op = .sequence .list) {parts : List Node}
    {n : Node} (hparts : ∀ p ∈ parts, p.WellBuilt) (h : (op.build parts).Returns n) :
    Joins n parts := by
  refine ⟨wellBuilt_of_nary hparts h, ?_⟩
  have hsequence : ∀ arity : Arity, arity = .chain ∨ arity = .list →
      ((Nary.sequence arity).build parts).Returns n →
      n.profile.text.contents = parts.flatMap (·.profile.text.contents) := by
    intro arity harity h
    obtain ⟨items, hitems, h⟩ := returns_bind.mp h
    obtain ⟨s, hs, rfl⟩ := returns_map.mp h
    obtain rfl := eq_ofItems_of_sequenceOf harity hs
    exact contents_sequence hparts hitems
  rcases hop with rfl | rfl | rfl
  · obtain ⟨raws, hraws, h⟩ := returns_bind.mp h
    obtain rfl := returns_pure.mp h
    exact contents_compound hraws
  · exact hsequence .chain (.inl rfl) h
  · exact hsequence .list (.inr rfl) h

/-- What literals and single characters are put together to is their escaped texts side by side. -/
theorem Spells.contents_eq {n : Node} {texts : List String} (h : Spells n texts) :
    n.WellBuilt ∧
      n.profile.text.contents = texts.flatMap fun text => escapeChars text.toList := by
  induction h with
  | literal text =>
      refine ⟨.literal text, ?_⟩
      show (Rope.ofString (escape text)).contents = _
      rw [Rope.contents_ofString, escape, String.toList_ofList, List.flatMap_singleton]
  | charLiteral c =>
      refine ⟨.charLiteral c, ?_⟩
      show (Rope.ofString (escapeChar c)).contents = _
      rw [Rope.contents_ofString, ← escape_singleton, escape, String.toList_ofList,
        List.flatMap_singleton]
  | convert conversion _ value ih =>
      refine ⟨wellBuilt_of_unary ih.1 value, ?_⟩
      rw [profile_of_conversion conversion value]
      exact ih.2
  | join joins _ _ value ih ih' =>
      have hjoins := joins_of_binary joins ih.1 ih'.1 value
      refine ⟨hjoins.wellBuilt, ?_⟩
      rw [hjoins.contents_eq, List.flatMap_append, List.flatMap_cons, List.flatMap_singleton, ih.2,
        ih'.2]
  | joinAll joins _ value ih =>
      have hjoins := joins_of_nary joins (by
        intro p hp
        obtain ⟨part, hpart, rfl⟩ := List.mem_map.mp hp
        exact (ih part hpart).1) value
      refine ⟨hjoins.wellBuilt, ?_⟩
      rw [hjoins.contents_eq, List.flatMap_map, List.flatMap_assoc]
      exact List.flatMap_congr fun part hpart => (ih part hpart).2

/-! ## Escaping is undone by decoding -/

theorem decode_escape (text : String) : decode (escape text) = some text := by
  have h := decodeAll_escapeChars text.toList []
  rw [List.append_nil, decodeAll_nil] at h
  rw [decode, escape, String.toList_ofList, h, Option.map_some, Option.map_some, List.append_nil,
    String.ofList_toList]

/-- In front of any text, as many characters are decoded as were escaped. -/
theorem decodeChars_escape (text rest : String) :
    decodeChars text.length (escape text ++ rest).toList = some (text.toList, rest.toList) := by
  rw [String.toList_append, escape, String.toList_ofList, ← String.length_toList]
  exact decodeChars_escapeChars text.toList rest.toList

theorem decode_render_of_spells {n : Node} {texts : List String} (h : Spells n texts) :
    decode n.render = some (String.join texts) := by
  obtain ⟨hwellBuilt, hcontents⟩ := h.contents_eq
  rw [decode, Node.toList_render, hcontents,
    decodeAll_flatMap_escapeChars, Option.map_some, ← String.toList_join, String.ofList_toList]

theorem escape_injective : Function.Injective escape := by
  intro a b hab
  have hdecoded := congrArg decode hab
  rw [decode_escape, decode_escape] at hdecoded
  exact Option.some.inj hdecoded

theorem render_literal (text : String) : (Expr.literal text).render = escape text := by
  show String.ofList (Rope.ofString (escape text)).contents = _
  rw [Rope.contents_ofString, String.ofList_toList]

/-- **Escaped text ends where it ends.**  In front of any text, as many characters are decoded as
    were escaped, and they are the same; what is put together from literals and single characters
    decodes to their texts in order, and is written out if there is room for it; no two texts are
    escaped alike; and the bound of a literal is the number of characters that it decodes to, as
    long as that is within the ceiling. -/
theorem escape_selfDelimiting :
    (∀ text rest : String,
      decodeChars text.length (escape text ++ rest).toList = some (text.toList, rest.toList)) ∧
    (∀ (n : Node) (texts : List String), Spells n texts →
      decode n.render = some (String.join texts) ∧
        (n.checkedRender = .ok n.render ↔ Text.Fits n.render)) ∧
    Function.Injective escape ∧
    (∀ text : String, ∃ decoded, decode (Expr.literal text).render = some decoded ∧
      ∀ bound, (Expr.literal text).analysis.boundedLength = some bound ↔
        decoded.length = bound ∧ bound ≤ maxBoundedLength) := by
  refine ⟨decodeChars_escape, ?_, escape_injective, ?_⟩
  · intro n texts h
    obtain ⟨hwellBuilt, -⟩ := h.contents_eq
    exact ⟨decode_render_of_spells h, hwellBuilt.checkedRender_eq_ok_iff⟩
  · intro text
    refine ⟨text, ?_, ?_⟩
    · rw [render_literal, decode_escape]
    · intro bound
      show clampBound (some text.length) = some bound ↔ _
      rw [clampBound_eq_some_iff, Option.some.injEq]

/-- A NUL at the end of one literal and a digit at the start of the next, in a sequence. -/
theorem escape_selfDelimiting_across_a_seam :
    ∃ s : Sequence, Spells (.sequence s) ["a\x00", "7"] ∧
      decode (Node.sequence s).render = some "a\x007" := by
  have hspells : Spells (.sequence (Sequence.pair (.ofLiteral "a\x00") (.ofLiteral "7")).value)
      (["a\x00"] ++ ["7"]) :=
    .join (.inr rfl) (.literal "a\x00") (.literal "7") rfl
  exact ⟨_, hspells, (escape_selfDelimiting.2.1 _ _ hspells).1⟩

end PatternAlgebra.Syntax
