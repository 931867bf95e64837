import PatternAlgebra.Proofs.Syntax.Decoding
/-!
# What comments mode skips

In comments mode an engine first skips blanks, and comments from a number sign to the end of the
line, unless a backslash stands before them.  What is left is read as ever.

Of the characters that the mode skips, escaping spells out those that have an escape, and these
stay.  The space and the vertical tab have none: they are written as they are, and they are lost.
So an escaped text still decodes to the text exactly if it has neither of them, and without NUL it
decodes to the text without them.  A NUL in its short form may come to stand before a digit once
what was between is lost, and then it takes in the digit.
-/

namespace PatternAlgebra.Syntax

/-! ## What is skipped -/

/-- The blanks that comments mode skips. -/
def isBlank (c : Char) : Bool := c ∈ [' ', '\t', '\n', '\x0b', '\x0c', '\r']

section Mode

-- another flag decides which characters end a line, and so a comment
variable (endsLine : Char → Bool)

mutual

/-- What comments mode leaves of a text. -/
def visible : List Char → List Char
  | [] => []
  | c :: text =>
    if c = '\\' then c :: visibleEscaped text
    else if c = '#' then visibleAfterComment text
    else if isBlank c then visible text
    else c :: visible text

/-- What it leaves behind a backslash. -/
def visibleEscaped : List Char → List Char
  | [] => []
  | c :: text => c :: visible text

/-- What it leaves once a comment has begun. -/
def visibleAfterComment : List Char → List Char
  | [] => []
  | c :: text => if endsLine c then visible text else visibleAfterComment text

end

/-- The pattern that an engine reads in comments mode. -/
def inComments (pattern : String) : String := String.ofList (visible endsLine pattern.toList)

/-- Comments mode deals with the text on its own, whatever stands behind it; and if the text is to
    stay whole, nothing of it is skipped. -/
structure Skims (whole : Prop) (text : List Char) : Prop where
  separate : ∀ rest, visible endsLine (text ++ rest)
    = visible endsLine text ++ visible endsLine rest
  unchanged : whole → visible endsLine text = text

end Mode

/-- Whether the character means nothing in comments mode beyond what it means without. -/
def isPlain (c : Char) : Bool := c != '\\' && c != '#' && !isBlank c

/-- The blanks that are written without a backslash, and so are lost. -/
def isLost (c : Char) : Bool := c == ' ' || c == '\x0b'

variable {endsLine : Char → Bool} {whole : Prop} {text text' : List Char} {c : Char}

theorem visible_backslash (c : Char) (text : List Char) :
    visible endsLine ('\\' :: c :: text) = '\\' :: c :: visible endsLine text := by
  rw [visible, if_pos rfl, visibleEscaped]

theorem visible_cons_of_isPlain (h : isPlain c = true) (text : List Char) :
    visible endsLine (c :: text) = c :: visible endsLine text := by
  simp only [isPlain, Bool.and_eq_true, bne_iff_ne, Bool.not_eq_true'] at h
  rw [visible, if_neg h.1.1, if_neg h.1.2, h.2, if_neg Bool.false_ne_true]

theorem visible_cons_of_isLost (h : isLost c = true) (text : List Char) :
    visible endsLine (c :: text) = visible endsLine text := by
  simp only [isLost, Bool.or_eq_true, beq_iff_eq] at h
  rcases h with rfl | rfl
  · rw [visible]
    rfl
  · rw [visible]
    rfl

namespace Skims

theorem nil : Skims endsLine whole [] := ⟨fun _ => rfl, fun _ => rfl⟩

theorem append (h : Skims endsLine whole text) (h' : Skims endsLine whole text') :
    Skims endsLine whole (text ++ text') where
  separate := by
    intro rest
    rw [List.append_assoc, h.separate, h'.separate, h.separate, List.append_assoc]
  unchanged := by
    intro hwhole
    rw [h.separate, h.unchanged hwhole, h'.unchanged hwhole]

theorem backslash (c : Char) (h : Skims endsLine whole text) :
    Skims endsLine whole ('\\' :: c :: text) where
  separate := by
    intro rest
    show visible endsLine ('\\' :: c :: (text ++ rest)) = _
    rw [visible_backslash, visible_backslash, h.separate]
    rfl
  unchanged := by
    intro hwhole
    rw [visible_backslash, h.unchanged hwhole]

theorem cons (hc : isPlain c = true) (h : Skims endsLine whole text) :
    Skims endsLine whole (c :: text) where
  separate := by
    intro rest
    rw [List.cons_append, visible_cons_of_isPlain hc, visible_cons_of_isPlain hc, h.separate]
    rfl
  unchanged := by
    intro hwhole
    rw [visible_cons_of_isPlain hc, h.unchanged hwhole]

theorem of_isPlain (h : text.all isPlain = true) : Skims endsLine whole text := by
  induction text with
  | nil => exact nil
  | cons c text ih =>
      rw [List.all_cons, Bool.and_eq_true] at h
      exact cons h.1 (ih h.2)

theorem flatMap {α : Type} {parts : List α} {text : α → List Char}
    (h : ∀ a ∈ parts, Skims endsLine whole (text a)) :
    Skims endsLine whole (parts.flatMap text) := by
  induction parts with
  | nil => exact nil
  | cons a parts ih =>
      rw [List.flatMap_cons]
      exact (h a (by simp)).append (ih fun b hb => h b (by simp [hb]))

end Skims

/-! ## Escaped characters -/

/-- A character that is written as itself is lost or means nothing to comments mode. -/
theorem isPlain_of_not_escaped (hlost : isLost c = false) (hc : c ∉ needsEscape.toList)
    (hcontrol : controlEscape? c = none) : isPlain c = true := by
  have hne : ∀ d, d ∈ needsEscape.toList ∨ controlEscape? d ≠ none ∨ isLost d = true → c ≠ d := by
    rintro d (hd | hd | hd) rfl
    · exact hc hd
    · exact hd hcontrol
    · exact Bool.false_ne_true (hlost.symm.trans hd)
  have hblank : isBlank c = false := by
    simp [isBlank, hne ' ' (by decide), hne '\t' (by decide), hne '\n' (by decide),
      hne '\x0b' (by decide), hne '\x0c' (by decide), hne '\r' (by decide)]
  simp [isPlain, hblank, hne '\\' (by decide), hne '#' (by decide)]

theorem escapedBefore_of_isLost (h : isLost c = true) (next : Option Char) :
    escapedBefore c next = [c] := by
  simp only [isLost, Bool.or_eq_true, beq_iff_eq] at h
  rcases h with rfl | rfl
  · rfl
  · rfl

theorem skims_escapedBefore_of_not_isLost (hlost : isLost c = false) (next : Option Char) :
    Skims endsLine whole (escapedBefore c next) := by
  rw [escapedBefore]
  split
  · exact .backslash '0' (.of_isPlain (by decide))
  · split
    · exact .backslash c .nil
    · rename_i hc
      cases hcontrol : controlEscape? c with
      | none => exact .cons (isPlain_of_not_escaped hlost hc hcontrol) .nil
      | some text =>
          rw [controlEscape?.eq_def] at hcontrol
          split at hcontrol
          all_goals cases hcontrol
          all_goals exact .backslash _ (.of_isPlain (by decide))

/-- What is written for a character stays whole, unless the character is lost. -/
theorem skims_escapedBefore (h : whole → isLost c = false) (next : Option Char) :
    Skims endsLine whole (escapedBefore c next) := by
  cases hlost : isLost c with
  | false => exact skims_escapedBefore_of_not_isLost hlost next
  | true =>
      rw [escapedBefore_of_isLost hlost]
      refine ⟨fun rest => ?_, fun hwhole => absurd (h hwhole) (by simp [hlost])⟩
      rw [List.singleton_append, visible_cons_of_isLost hlost, visible_cons_of_isLost hlost]
      rfl

/-! ## Escaped texts -/

/-- Characters with what is known of the next one, written one after another. -/
def writeUnits (units : List (Char × Option Char)) : List Char :=
  units.flatMap fun unit => escapedBefore unit.1 unit.2

theorem writeUnits_cons (unit : Char × Option Char) (units : List (Char × Option Char)) :
    writeUnits (unit :: units) = escapedBefore unit.1 unit.2 ++ writeUnits units :=
  List.flatMap_cons

/-- The characters of a run, each with the next one in view. -/
def withNext : List Char → List (Char × Option Char)
  | [] => []
  | c :: chars => (c, chars.head?) :: withNext chars

theorem escapeChars_eq_writeUnits (chars : List Char) :
    escapeChars chars = writeUnits (withNext chars) := by
  induction chars with
  | nil => rfl
  | cons c chars ih => rw [escapeChars, ih, withNext, writeUnits_cons]

theorem map_fst_withNext (chars : List Char) : (withNext chars).map Prod.fst = chars := by
  induction chars with
  | nil => rfl
  | cons c chars ih => rw [withNext, List.map_cons, ih]

theorem fst_mem_of_mem_withNext {chars : List Char} {unit : Char × Option Char}
    (h : unit ∈ withNext chars) : unit.1 ∈ chars := by
  rw [← map_fst_withNext chars]
  exact List.mem_map_of_mem h

/-- Comments mode leaves just the characters that are not lost. -/
theorem visible_writeUnits (units : List (Char × Option Char)) :
    visible endsLine (writeUnits units) = writeUnits (units.filter (!isLost ·.1)) := by
  induction units with
  | nil => rfl
  | cons unit units ih =>
      rw [writeUnits_cons]
      cases hlost : isLost unit.1 with
      | true =>
          rw [escapedBefore_of_isLost hlost, List.singleton_append, visible_cons_of_isLost hlost,
            List.filter_cons_of_neg (by simp [hlost]), ih]
      | false =>
          have hskims : Skims endsLine True (escapedBefore unit.1 unit.2) :=
            skims_escapedBefore_of_not_isLost hlost unit.2
          rw [hskims.separate, hskims.unchanged trivial,
            List.filter_cons_of_pos (by simp [hlost]), writeUnits_cons, ih]

theorem skims_escapeChars {chars : List Char} (h : whole → ∀ c ∈ chars, isLost c = false) :
    Skims endsLine whole (escapeChars chars) := by
  rw [escapeChars_eq_writeUnits]
  exact .flatMap fun unit hunit =>
    skims_escapedBefore (fun hwhole => h hwhole unit.1 (fst_mem_of_mem_withNext hunit)) unit.2

/-! ## Decoding what is left -/

/-- Only NUL is written with a view to the next character. -/
theorem escapedBefore_of_ne_nul (hc : c ≠ '\x00') (next next' : Option Char) :
    escapedBefore c next = escapedBefore c next' := by
  simp only [escapedBefore, hc, false_and, if_false]

/-- Digits at the front are characters that are written as themselves. -/
theorem drop_writeUnits {count : Nat} {units : List (Char × Option Char)}
    (h : ∀ c ∈ (writeUnits units).take count, isOctalDigit c = true) :
    (writeUnits units).drop count = writeUnits (units.drop count) := by
  induction count generalizing units with
  | zero => rfl
  | succ count ih =>
      cases units with
      | nil => rfl
      | cons unit units =>
          rw [writeUnits_cons] at h ⊢
          rcases escapedBefore_shape unit.1 unit.2 with ⟨d, text, heq, -⟩ | ⟨heq, -⟩
          · rw [heq] at h
            exact absurd (h '\\' (List.mem_cons_self ..)) (by decide)
          · rw [heq] at h ⊢
            exact ih fun c hc => h c (List.mem_cons_of_mem _ hc)

/-- The short form of NUL takes in whole characters, so that the rest is whole characters. -/
theorem exists_writeUnits_of_readOctal {units : List (Char × Option Char)} {rest : List Char}
    (h : readOctal ('0' :: writeUnits units) = some (c, rest)) :
    ∃ count, rest = writeUnits (units.drop count) := by
  let digits := ((writeUnits units).take 2).takeWhile isOctalDigit
  have hall : (('0' :: writeUnits units).take 3).takeWhile isOctalDigit = '0' :: digits := rfl
  rw [readOctal, hall] at h
  obtain ⟨-, rfl⟩ := Prod.mk.inj (Option.some.inj h)
  have hfront : digits = (writeUnits units).take digits.length :=
    List.prefix_iff_eq_take.mp ((List.takeWhile_prefix _).trans (List.take_prefix _ _))
  refine ⟨digits.length, drop_writeUnits ?_⟩
  rw [← hfront]
  exact List.all_eq_true.mp List.all_takeWhile

/-- Behind the first character of written characters are some of the others. -/
theorem exists_writeUnits_of_decodeChar {unit : Char × Option Char}
    {units : List (Char × Option Char)} {rest : List Char}
    (h : decodeChar (writeUnits (unit :: units)) = some (c, rest)) :
    ∃ count, rest = writeUnits (units.drop count) := by
  rw [writeUnits_cons] at h
  by_cases hnul : unit.1 = '\x00' ∧ shortNulIsSafe unit.2 = true
  · have hshort : escapedBefore unit.1 unit.2 = ['\\', '0', '0'] := by
      rw [escapedBefore, hnul.1, hnul.2]
      rfl
    rw [hshort] at h
    exact exists_writeUnits_of_readOctal h
  · obtain ⟨next, hwritten, hfollows⟩ : ∃ next, escapedBefore unit.1 unit.2
        = escapedBefore unit.1 next ∧ Follows next (writeUnits units) := by
      by_cases hc : unit.1 = '\x00'
      · exact ⟨unit.2, rfl, fun hsafe => absurd ⟨hc, hsafe⟩ hnul⟩
      · exact ⟨none, escapedBefore_of_ne_nul hc _ _, follows_none _⟩
    rw [hwritten] at h
    have hrest := h.symm.trans (decodeChar_escapedBefore unit.1 hfollows)
    exact ⟨0, (Prod.mk.inj (Option.some.inj hrest)).2⟩

/-- No more characters are decoded than were written. -/
theorem length_le_of_decodeAll (units : List (Char × Option Char)) {chars : List Char}
    (h : decodeAll (writeUnits units) = some chars) : chars.length ≤ units.length := by
  match units with
  | [] =>
      obtain rfl := Option.some.inj (decodeAll_nil.symm.trans h)
      exact Nat.le_refl 0
  | unit :: units =>
      have hne : writeUnits (unit :: units) ≠ [] := by
        rw [writeUnits_cons]
        exact List.append_ne_nil_of_left_ne_nil (escapedBefore_ne_nil unit.1 unit.2) _
      obtain ⟨c, rest, tail, hchar, htail, rfl⟩ := exists_decodeChar_of_decodeAll hne h
      obtain ⟨count, rfl⟩ := exists_writeUnits_of_decodeChar hchar
      have hle := length_le_of_decodeAll (units.drop count) htail
      rw [List.length_drop] at hle
      rw [List.length_cons, List.length_cons]
      omega
termination_by units.length
decreasing_by
  rw [List.length_drop, List.length_cons]
  omega

/-- The escaped text in comments mode. -/
theorem toList_inComments_escape (text : String) :
    (inComments endsLine (escape text)).toList
      = writeUnits ((withNext text.toList).filter (!isLost ·.1)) := by
  rw [inComments, String.toList_ofList, escape, String.toList_ofList, escapeChars_eq_writeUnits,
    visible_writeUnits]

/-- Escaped text decodes to the text in comments mode if nothing in it is lost, and only then:
    what is left could not decode to as many characters as the text has. -/
theorem decode_inComments_escape_iff (text : String) :
    decode (inComments endsLine (escape text)) = some text ↔
      ∀ c ∈ text.toList, isLost c = false := by
  constructor
  · intro h
    obtain ⟨chars, hchars, htext⟩ := Option.map_eq_some_iff.mp h
    obtain rfl : chars = text.toList := by rw [← htext, String.toList_ofList]
    rw [toList_inComments_escape] at hchars
    have hlength : text.toList.length = (withNext text.toList).length := by
      rw [← List.length_map Prod.fst, map_fst_withNext]
    have hkept : ((withNext text.toList).filter (!isLost ·.1)).length
        = (withNext text.toList).length :=
      Nat.le_antisymm (List.length_filter_le _ _) (hlength ▸ length_le_of_decodeAll _ hchars)
    intro c hc
    rw [← map_fst_withNext text.toList] at hc
    obtain ⟨unit, hunit, rfl⟩ := List.mem_map.mp hc
    simpa using List.length_filter_eq_length_iff.mp hkept unit hunit
  · intro h
    have hall : inComments endsLine (escape text) = escape text := by
      have hskims : Skims endsLine True (escapeChars text.toList) := skims_escapeChars fun _ => h
      rw [inComments, escape, String.toList_ofList, hskims.unchanged trivial]
    rw [hall, decode_escape]

/-- Without NUL, what is written for a character does not depend on the others. -/
theorem writeUnits_of_ne_nul {units : List (Char × Option Char)}
    (h : ∀ unit ∈ units, unit.1 ≠ '\x00') :
    writeUnits units = (units.map Prod.fst).flatMap escapedAlone := by
  rw [List.flatMap_map]
  exact List.flatMap_congr fun unit hunit => escapedBefore_of_ne_nul (h unit hunit) _ _

theorem escapeChars_of_ne_nul {chars : List Char} (h : ∀ c ∈ chars, c ≠ '\x00') :
    escapeChars chars = chars.flatMap escapedAlone := by
  rw [escapeChars_eq_writeUnits, writeUnits_of_ne_nul, map_fst_withNext]
  exact fun unit hunit => h unit.1 (fst_mem_of_mem_withNext hunit)

/-- Without NUL, comments mode leaves the text without its lost characters. -/
theorem decode_inComments_escape_of_ne_nul {text : String} (h : ∀ c ∈ text.toList, c ≠ '\x00') :
    decode (inComments endsLine (escape text))
      = some (String.ofList (text.toList.filter (!isLost ·))) := by
  have hkept : inComments endsLine (escape text)
      = escape (String.ofList (text.toList.filter (!isLost ·))) := by
    rw [← String.toList_inj, toList_inComments_escape, writeUnits_of_ne_nul, escape,
      String.toList_ofList, String.toList_ofList, escapeChars_of_ne_nul]
    · conv_rhs => rw [← map_fst_withNext text.toList, List.filter_map]
      rfl
    · exact fun c hc => h c (List.mem_filter.mp hc).1
    · exact fun unit hunit => h unit.1 (fst_mem_of_mem_withNext (List.mem_filter.mp hunit).1)
  rw [hkept, decode_escape]

end PatternAlgebra.Syntax
