import PatternAlgebra.Proofs.Syntax.ReadClass
/-!
# Reading back tokens

Each thing that is written into a pattern is read back as one token, and nothing of the text after
it is taken in.  Two tokens could go on: a quantifier, after which a mode might follow, and an
opening parenthesis, after which the kind of group might.  Both are only followed by a text that
does not start like a quantifier.
-/

namespace PatternAlgebra.Syntax

/-! ## Entities and characters -/

/-- What quantifiers and their modes start with. -/
def quantifierStarts : String := "*+?\x7b"

theorem not_mem_backslash_quantifierStarts : '\\' ∉ quantifierStarts.toList := by decide

theorem mem_needsEscape_of_quantifierStarts :
    ∀ c ∈ quantifierStarts.toList, c ∈ needsEscape.toList := by
  simp [quantifierStarts, needsEscape]

theorem mem_needsEscape_of_specialInPattern :
    ∀ c ∈ specialInPattern.toList, c ∈ needsEscape.toList := by
  simp [specialInPattern, needsEscape]

theorem nextToken_entity (e : Entity) (rest : List Char) :
    nextToken (e.text.toList ++ rest) = some (.piece (.entity e), rest) := by
  cases e <;> rfl

/-- A backslash that is not that of an entity starts a class or a character. -/
theorem nextToken_backslash {text : List Char} (h : readEntity ('\\' :: text) = none) :
    nextToken ('\\' :: text) = readSimplePiece ('\\' :: text) := by
  have hquantifier : readQuantifier ('\\' :: text) = none := rfl
  rw [nextToken.eq_def, h, hquantifier]
  rfl

theorem nextToken_char (c : Char) {next : Option Char} {rest : List Char}
    (hfollows : Follows next rest) :
    nextToken (escapedBefore c next ++ rest) = some (.piece (.char c), rest) := by
  have hread := readChar_escapedBefore mem_needsEscape_of_specialInPattern c hfollows
  rcases escapedBefore_shape c next with ⟨d, text, heq, hd⟩ | ⟨heq, hc⟩
  · rw [heq] at hread ⊢
    have hescaped : readEscaped (d :: (text ++ rest)) = some (c, rest) := hread
    show nextToken ('\\' :: d :: (text ++ rest)) = _
    obtain ⟨hclass, hentity⟩ := named_by_afterBackslash d hd (text ++ rest)
    rw [nextToken_backslash hentity, readSimplePiece, hclass]
    show (readEscaped (d :: (text ++ rest))).map _ = _
    rw [hescaped]
    rfl
  · have hother : ∀ d ∈ needsEscape.toList, ∀ tail, c :: rest = d :: tail → False := by
      rintro d hd tail heq
      obtain ⟨rfl, -⟩ := List.cons.inj heq
      exact hc hd
    rw [heq, List.singleton_append] at hread ⊢
    -- none of the texts that start with a meaning
    have hentity : readEntity (c :: rest) = none := by
      rw [readEntity]
      · exact hother '.' (by decide)
      · exact hother '^' (by decide)
      · exact hother '$' (by decide)
      all_goals exact fun tail heq => hother '\\' (by decide) _ heq
    have hquantifier : readQuantifier (c :: rest) = none := by
      rw [readQuantifier]
      · exact hother '*' (by decide)
      · exact hother '+' (by decide)
      · exact hother '?' (by decide)
      · exact hother '\x7b' (by decide)
    have hsimple : readSimplePiece (c :: rest)
        = (readChar specialInPattern (c :: rest)).map (Prod.map (.piece ∘ .char) id) := by
      rw [readSimplePiece]
      exact hother '\\' (by decide)
    rw [nextToken, hentity, hquantifier]
    · show readSimplePiece (c :: rest) = _
      rw [hsimple, hread]
      rfl
    · exact hother '|' (by decide)
    · exact hother '(' (by decide)
    · exact hother ')' (by decide)
    · exact fun tail heq => hother '[' (by decide) _ heq
    · exact hother '[' (by decide)

/-! ## Classes -/

theorem nextToken_named {text rest : List Char} {k : ClassItem}
    (hentity : readEntity ('\\' :: text) = none) (h : readNamedClass text = some (k, rest)) :
    nextToken ('\\' :: text) = some (.piece (.charClass k), rest) := by
  rw [nextToken_backslash hentity, readSimplePiece, h]

theorem nextToken_bracket {text : List Char} {operands : List (List ClassItem)}
    (h : ReadsAsOperands text operands) (hne : operands ≠ []) (rest : List Char) :
    nextToken ('[' :: text ++ [']'] ++ rest)
      = some (.piece (.charClass (.bracket false operands)), rest) := by
  have htoken : nextToken ('[' :: (text ++ ']' :: rest))
      = (readBracket false {} (text ++ ']' :: rest)).map (Prod.map (.piece ∘ .charClass) id) := by
    have hentity : readEntity ('[' :: (text ++ ']' :: rest)) = none := rfl
    have hquantifier : readQuantifier ('[' :: (text ++ ']' :: rest)) = none := rfl
    rw [nextToken, hentity, hquantifier]
    exact h.ne_caret rest
  rw [List.append_assoc, List.cons_append, List.singleton_append, htoken,
    h.reads false {} _ (.cons (by decide) _), State.addBranches, readBracket_end,
    Level.branches_addBranches hne]
  rfl

theorem nextToken_complement {text : List Char} {operands : List (List ClassItem)}
    (h : ReadsAsOperands text operands) (hne : operands ≠ []) (rest : List Char) :
    nextToken (['[', '^'] ++ text ++ [']'] ++ rest)
      = some (.piece (.charClass (.bracket true operands)), rest) := by
  have htoken : nextToken ('[' :: '^' :: (text ++ ']' :: rest))
      = (readBracket true {} (text ++ ']' :: rest)).map (Prod.map (.piece ∘ .charClass) id) := rfl
  rw [List.append_assoc, List.append_assoc, List.singleton_append, List.cons_append,
    List.singleton_append, htoken, h.reads true {} _ (.cons (by decide) _), State.addBranches,
    readBracket_end, Level.branches_addBranches hne]
  rfl

theorem nextToken_class {k : CharClass} (h : k.WellBuilt) (hr : k.isReadable = true) :
    ∃ p : Piece, p.isRepeated = false ∧ k.pieces = [p] ∧
      ∀ rest, nextToken (k.independentChars ++ rest) = some (.piece p, rest) := by
  have hitems := readsAsItems_bareChars h hr
  cases h with
  | single c => exact ⟨.char c, rfl, rfl, fun rest => nextToken_char c (follows_none rest)⟩
  | set _ _ =>
      exact ⟨_, rfl, rfl, nextToken_bracket hitems.operands (List.cons_ne_nil _ _)⟩
  | range _ =>
      exact ⟨_, rfl, rfl, nextToken_bracket hitems.operands (List.cons_ne_nil _ _)⟩
  | shorthand kind isNegated =>
      refine ⟨.charClass (.shorthand kind isNegated), rfl, rfl, fun rest => ?_⟩
      refine nextToken_named ?_ (readNamedClass_shorthand kind isNegated rest)
      cases kind <;> cases isNegated <;> rfl
  | property name isNegated =>
      have hname : name.toList.contains '\x7d' = false := by
        simpa [CharClass.isReadable] using hr
      refine ⟨.charClass (.property name isNegated), rfl, rfl, fun rest => ?_⟩
      show nextToken (CharClass.propertyChars name isNegated ++ rest) = _
      rw [propertyChars_append]
      refine nextToken_named ?_ (readNamedClass_property hname isNegated rest)
      cases isNegated <;> rfl
  | @complement inner _ hinner =>
      have hoperands := (readsAsItems_bareChars hinner hr).operands
      exact ⟨_, rfl, rfl, nextToken_complement hoperands (List.cons_ne_nil _ _)⟩
  | union _ _ _ =>
      exact ⟨_, rfl, rfl, nextToken_bracket hitems.operands (List.cons_ne_nil _ _)⟩
  | @intersection members hsev _ hmembers =>
      have hne : members ≠ [] := ne_nil_of_several hsev
      have hoperands := readsAsOperands_operandChars hne fun k hk =>
        readsAsItems_bareChars (hmembers k hk) (CharClass.isReadable_of_mem hr hk)
      exact ⟨_, rfl, rfl, nextToken_bracket hoperands (CharClass.operands_ne_nil hne)⟩

theorem startsOutside_independentChars {k : CharClass} (h : k.WellBuilt) :
    StartsOutside quantifierStarts k.independentChars := by
  have hbracket : '[' ∉ quantifierStarts.toList := by decide
  cases h with
  | single c =>
      exact startsOutside_escapedBefore not_mem_backslash_quantifierStarts
        mem_needsEscape_of_quantifierStarts c none
  | set _ _ => exact .cons hbracket _
  | range _ => exact .cons hbracket _
  | shorthand _ _ => exact .cons not_mem_backslash_quantifierStarts _
  | property _ _ => exact .cons not_mem_backslash_quantifierStarts _
  | complement _ _ => exact .cons hbracket _
  | union _ _ _ => exact .cons hbracket _
  | intersection _ _ _ => exact .cons hbracket _

/-! ## Quantifiers -/

theorem readMode_suffix (mode : Mode) {rest : List Char}
    (hrest : StartsOutside quantifierStarts rest) :
    readMode (mode.suffix.toList ++ rest) = (mode, rest) := by
  cases mode with
  | reluctant => rfl
  | possessive => rfl
  | greedy =>
      show readMode rest = _
      cases rest with
      | nil => rfl
      | cons c rest =>
          rw [readMode]
          · rintro _ heq
            exact hrest.ne_of_cons (by decide) (List.cons.inj heq).1
          · rintro _ heq
            exact hrest.ne_of_cons (by decide) (List.cons.inj heq).1

theorem readCounts_exactly (count : Nat) (rest : List Char) :
    readCounts ((toString count).toList ++ '\x7d' :: rest) = some (.exactly count, rest) := by
  rw [readCounts, readNumber_toString count rfl rest]
  rfl

theorem readCounts_atLeast (min : Nat) (rest : List Char) :
    readCounts ((toString min).toList ++ ',' :: '\x7d' :: rest) = some (.range min none, rest) := by
  rw [readCounts, readNumber_toString min rfl]
  rfl

theorem readCounts_between (min max : Nat) (rest : List Char) :
    readCounts ((toString min).toList ++ ',' :: ((toString max).toList ++ '\x7d' :: rest))
      = some (.range min (some max), rest) := by
  have hmax : readMaximum ((toString max).toList ++ '\x7d' :: rest) = some (some max, rest) := by
    rw [readMaximum.eq_def, readNumber_toString max rfl rest]
    rfl
  rw [readCounts, readNumber_toString min rfl]
  show (readMaximum ((toString max).toList ++ '\x7d' :: rest)).map _ = _
  rw [hmax]
  rfl

/-- A written quantifier starts like one, and is read back. -/
theorem readQuantifier_text (q : Quantifier) (rest : List Char) :
    readEntity (q.text.toList ++ rest) = none ∧
      readQuantifier (q.text.toList ++ rest) = some (q, rest) := by
  cases q with
  | anyTimes => exact ⟨rfl, rfl⟩
  | atLeastOnce => exact ⟨rfl, rfl⟩
  | optional => exact ⟨rfl, rfl⟩
  | exactly count =>
      have htext : (Quantifier.exactly count).text.toList ++ rest
          = '\x7b' :: ((toString count).toList ++ '\x7d' :: rest) := by
        simp [Quantifier.text]
      rw [htext]
      exact ⟨rfl, readCounts_exactly count rest⟩
  | range min max =>
      cases max with
      | none =>
          have htext : (Quantifier.range min none).text.toList ++ rest
              = '\x7b' :: ((toString min).toList ++ ',' :: '\x7d' :: rest) := by
            simp [Quantifier.text]
          rw [htext]
          exact ⟨rfl, readCounts_atLeast min rest⟩
      | some max =>
          have htext : (Quantifier.range min (some max)).text.toList ++ rest
              = '\x7b' :: ((toString min).toList ++ ','
                :: ((toString max).toList ++ '\x7d' :: rest)) := by
            simp [Quantifier.text]
          rw [htext]
          exact ⟨rfl, readCounts_between min max rest⟩

theorem nextToken_quantifier (q : Quantifier) (mode : Mode) {rest : List Char}
    (hrest : StartsOutside quantifierStarts rest) :
    nextToken ((q.text ++ mode.suffix).toList ++ rest) = some (.quantifier q mode, rest) := by
  rw [String.toList_append, List.append_assoc]
  obtain ⟨hentity, hquantifier⟩ := readQuantifier_text q (mode.suffix.toList ++ rest)
  rw [nextToken.eq_def, hentity, hquantifier]
  show some (Token.quantifier q (readMode _).1, (readMode _).2) = _
  rw [readMode_suffix mode hrest]

/-! ## Groups -/

theorem readGroupKind_disableFlags (flags : List Flag) (rest : List Char) :
    readGroupKind ('?' :: '-' :: ((flagLetters flags).toList ++ ':' :: rest))
      = some (.disableFlags flags, rest) := by
  rw [readGroupKind, readFlagGroup, readFlags_flagLetters flags rfl rest]
  rfl

/-- Without letters the opening parenthesis is that of a group that does not capture. -/
theorem readGroupKind_enableFlags (flags : List Flag) (rest : List Char) :
    readGroupKind ('?' :: ((flagLetters flags).toList ++ ':' :: rest))
      = some ((GroupKind.enableFlags flags).asWritten, rest) := by
  cases flags with
  | nil => rfl
  | cons flag flags =>
      have hletters : (flagLetters (flag :: flags)).toList
          = flag.letter :: (flagLetters flags).toList := by
        simp [flagLetters]
      have hflags := readFlags_flagLetters (flag :: flags) (c := ':') rfl rest
      rw [hletters] at hflags ⊢
      have hread : ∀ text, readGroupKind ('?' :: flag.letter :: text)
          = readFlagGroup .enableFlags (flag.letter :: text) := by
        intro text
        cases flag <;> rfl
      rw [List.cons_append, hread, readFlagGroup, ← List.cons_append, hflags]
      rfl

/-- An opening parenthesis tells the kind of group if no quantifier comes after it. -/
theorem nextToken_opening (kind : GroupKind) {rest : List Char}
    (hrest : StartsOutside quantifierStarts rest) :
    nextToken (kind.opening.toList ++ rest) = some (.enter kind.asWritten, rest) := by
  have htoken : ∀ text, nextToken ('(' :: text)
      = (readGroupKind text).map (Prod.map .enter id) := fun _ => rfl
  cases kind with
  | capture =>
      have hplain : ∀ tail, rest = '?' :: tail → False := by
        rintro tail rfl
        exact hrest '?' rfl (by decide)
      have hkind : readGroupKind rest = some (.capture, rest) := by
        rw [readGroupKind]
        all_goals first | exact hplain | exact fun tail => hplain _
      show nextToken ('(' :: rest) = _
      rw [htoken, hkind]
      rfl
  | nonCapturing => rfl
  | independent => rfl
  | positiveLookAhead => rfl
  | negativeLookAhead => rfl
  | positiveLookBehind => rfl
  | negativeLookBehind => rfl
  | enableFlags flags =>
      have htext : (GroupKind.enableFlags flags).opening.toList ++ rest
          = '(' :: '?' :: ((flagLetters flags).toList ++ ':' :: rest) := by
        simp [GroupKind.opening]
      rw [htext, htoken, readGroupKind_enableFlags]
      rfl
  | disableFlags flags =>
      have htext : (GroupKind.disableFlags flags).opening.toList ++ rest
          = '(' :: '?' :: '-' :: ((flagLetters flags).toList ++ ':' :: rest) := by
        simp [GroupKind.opening]
      rw [htext, htoken, readGroupKind_disableFlags]
      rfl

end PatternAlgebra.Syntax
