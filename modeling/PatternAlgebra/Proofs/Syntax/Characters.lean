import PatternAlgebra.Proofs.Syntax.Reader
/-!
# Reading back characters, numbers and flags

Written characters are read back one by one, whatever text follows them, with one exception: the
short form of NUL could take in a digit.  It is only written where the next character is known not
to be a digit, so within a run of characters the exception never shows, and the last character of
a run is not written in that form.

The other way round, no character in a pattern can be mistaken for what may stand at the front of
the text after it, since all characters with a meaning are escaped.
-/

namespace PatternAlgebra.Syntax

/-! ## The front of a text -/

/-- The text does not start with one of the characters. -/
def StartsOutside (chars : String) (text : List Char) : Prop :=
  ∀ c, text.head? = some c → c ∉ chars.toList

namespace StartsOutside

variable {chars : String} {text rest : List Char}

theorem nil : StartsOutside chars [] := fun _ h => nomatch h

theorem cons {c : Char} (h : c ∉ chars.toList) (text : List Char) :
    StartsOutside chars (c :: text) := by
  intro d hd
  obtain rfl := Option.some.inj hd
  exact h

theorem append (h : StartsOutside chars text) (hrest : StartsOutside chars rest) :
    StartsOutside chars (text ++ rest) := by
  cases text with
  | nil => exact hrest
  | cons c text => exact .cons (h c rfl) _

/-- If there is a first character, nothing that comes later matters. -/
theorem append_of_ne_nil (h : StartsOutside chars text) (hne : text ≠ []) (rest : List Char) :
    StartsOutside chars (text ++ rest) := by
  cases text with
  | nil => exact absurd rfl hne
  | cons c text => exact .cons (h c rfl) _

theorem ne_of_cons {c d : Char} (h : StartsOutside chars (c :: text)) (hd : d ∈ chars.toList) :
    c ≠ d := by
  rintro rfl
  exact h c rfl hd

end StartsOutside

/-- What is left after a text that is not empty is shorter. -/
theorem length_lt_append {text : List Char} (hne : text ≠ []) (rest : List Char) :
    rest.length < (text ++ rest).length := by
  have hpos := List.length_pos_iff.mpr hne
  rw [List.length_append]
  omega

/-! ## How characters are written -/

/-- The characters that are written after a backslash: those with a meaning, which stand for
    themselves, and the letters and the digit that stand for control characters. -/
def afterBackslash : List Char := needsEscape.toList ++ ['n', 't', 'r', 'f', 'a', 'e', '0']

/-- A character is written as a backslash and what comes after one, or as itself. -/
theorem escapedBefore_shape (c : Char) (next : Option Char) :
    (∃ d text, escapedBefore c next = '\\' :: d :: text ∧ d ∈ afterBackslash) ∨
      (escapedBefore c next = [c] ∧ c ∉ needsEscape.toList) := by
  rw [escapedBefore]
  split
  · exact Or.inl ⟨'0', ['0', '0', '0'], rfl, by decide⟩
  · split
    · rename_i hc
      exact Or.inl ⟨c, [], rfl, List.mem_append_left _ hc⟩
    · rename_i hc
      rw [controlEscape?.eq_def]
      split
      · exact Or.inl ⟨'n', [], rfl, by decide⟩
      · exact Or.inl ⟨'t', [], rfl, by decide⟩
      · exact Or.inl ⟨'r', [], rfl, by decide⟩
      · exact Or.inl ⟨'f', [], rfl, by decide⟩
      · exact Or.inl ⟨'a', [], rfl, by decide⟩
      · exact Or.inl ⟨'e', [], rfl, by decide⟩
      · exact Or.inl ⟨'0', ['0'], rfl, by decide⟩
      · exact Or.inr ⟨rfl, hc⟩

theorem escapedBefore_ne_nil (c : Char) (next : Option Char) : escapedBefore c next ≠ [] := by
  rcases escapedBefore_shape c next with ⟨d, text, heq, -⟩ | ⟨heq, -⟩
  · rw [heq]
    exact List.cons_ne_nil _ _
  · rw [heq]
    exact List.cons_ne_nil _ _

/-- A written character does not start like any of the characters with a meaning, except for the
    backslash. -/
theorem startsOutside_escapedBefore {chars : String} (hbackslash : '\\' ∉ chars.toList)
    (hescaped : ∀ d ∈ chars.toList, d ∈ needsEscape.toList) (c : Char) (next : Option Char) :
    StartsOutside chars (escapedBefore c next) := by
  rcases escapedBefore_shape c next with ⟨d, text, heq, -⟩ | ⟨heq, hc⟩
  · rw [heq]
    exact .cons hbackslash _
  · rw [heq]
    exact .cons (fun hmem => hc (hescaped c hmem)) _

theorem startsOutside_escapeChars {chars : String} (hbackslash : '\\' ∉ chars.toList)
    (hescaped : ∀ d ∈ chars.toList, d ∈ needsEscape.toList) (text : List Char) :
    StartsOutside chars (escapeChars text) := by
  induction text with
  | nil => exact .nil
  | cons c text ih => exact (startsOutside_escapedBefore hbackslash hescaped c text.head?).append ih

/-! ## The short form of NUL -/

/-- If a character has been written with the next one in view, the text after it starts in a way
    that cannot be mistaken for more of the character. -/
def Follows (next : Option Char) (rest : List Char) : Prop :=
  shortNulIsSafe next = true → ∀ c, rest.head? = some c → isOctalDigit c = false

theorem follows_none (rest : List Char) : Follows none rest := fun h => nomatch h

theorem follows_dash (rest : List Char) : Follows (some '-') ('-' :: rest) := by
  intro _ c hc
  obtain rfl := Option.some.inj hc
  rfl

/-- In a run, the text after a character starts as the next character is written. -/
theorem follows_escapeChars (text rest : List Char) :
    Follows text.head? (escapeChars text ++ rest) := by
  cases text with
  | nil => exact follows_none _
  | cons c text =>
      intro hsafe d hd
      have hc : isOctalDigit c = false := by simpa [shortNulIsSafe] using hsafe
      rw [escapeChars, List.append_assoc] at hd
      rcases escapedBefore_shape c text.head? with ⟨e, tail, heq, -⟩ | ⟨heq, -⟩
      · rw [heq] at hd
        obtain rfl := Option.some.inj hd
        rfl
      · rw [heq] at hd
        obtain rfl := Option.some.inj hd
        exact hc

/-! ## Reading characters -/

/-- What comes after a backslash stands for itself if it has a meaning. -/
theorem readEscaped_of_needsEscape : ∀ c ∈ needsEscape.toList, ∀ rest : List Char,
    readEscaped (c :: rest) = some (c, rest) := by
  simp only [needsEscape, String.reduceToList, List.forall_mem_cons, List.not_mem_nil,
    false_implies, implies_true, and_true]
  repeat' apply And.intro
  all_goals exact fun _ => rfl

/-- What comes after a backslash in a written character names neither a class nor an entity. -/
theorem named_by_afterBackslash : ∀ c ∈ afterBackslash, ∀ text : List Char,
    readNamedClass (c :: text) = none ∧ readEntity ('\\' :: c :: text) = none := by
  simp only [afterBackslash, needsEscape, String.reduceToList, List.cons_append, List.nil_append,
    List.forall_mem_cons, List.not_mem_nil, false_implies, implies_true, and_true]
  repeat' apply And.intro
  all_goals exact fun _ => ⟨rfl, rfl⟩

/-- After a short NUL, no more digits are taken. -/
theorem readOctal_short {rest : List Char} (h : ∀ c, rest.head? = some c → isOctalDigit c = false) :
    readOctal ('0' :: rest) = some ('\x00', rest) := by
  cases rest with
  | nil => rfl
  | cons c rest =>
      have hc : isOctalDigit c = false := h c rfl
      have hdigits : (('0' :: c :: rest).take 3).takeWhile isOctalDigit = ['0'] := by
        show List.takeWhile isOctalDigit ('0' :: c :: rest.take 1) = ['0']
        rw [List.takeWhile_cons_of_pos (show isOctalDigit '0' = true by decide),
          List.takeWhile_cons_of_neg (by simp [hc])]
      rw [readOctal, hdigits]
      rfl

/-- A written character is read back, and nothing of what follows. -/
theorem readChar_escapedBefore {special : String}
    (hspecial : ∀ c ∈ special.toList, c ∈ needsEscape.toList) (c : Char) {next : Option Char}
    {rest : List Char} (hfollows : Follows next rest) :
    readChar special (escapedBefore c next ++ rest) = some (c, rest) := by
  rw [escapedBefore]
  split
  · -- with all its digits, NUL takes in no more
    rename_i hnul
    rw [hnul.1]
    rfl
  · rename_i hnul
    split
    · rename_i hc
      show readEscaped (c :: rest) = _
      exact readEscaped_of_needsEscape c hc rest
    · rename_i hc
      rw [controlEscape?.eq_def]
      split
      · rfl
      · rfl
      · rfl
      · rfl
      · rfl
      · rfl
      · -- with one digit only, the next character must not be a digit
        show readOctal ('0' :: rest) = _
        have hsafe : shortNulIsSafe next = true := by
          simpa using hnul
        exact readOctal_short (hfollows hsafe)
      · -- no backslash, and nothing special, since all of that is escaped
        have hbackslash : c ≠ '\\' := by
          rintro rfl
          exact hc (by decide)
        show readChar special (c :: rest) = _
        rw [readChar, if_neg fun hmem => hc (hspecial c hmem)]
        rintro rfl
        exact hbackslash rfl

/-! ## Reading numbers and flags -/

/-- A number is read back if no digit follows it. -/
theorem readNumber_toString (n : Nat) {c : Char} (hc : c.isDigit = false) (rest : List Char) :
    readNumber ((toString n).toList ++ c :: rest) = some (n, c :: rest) := by
  have hdigits : ∀ d ∈ Nat.toDigits 10 n, d.isDigit = true := fun d hd =>
    Nat.isDigit_of_mem_toDigits (by decide) (by decide) hd
  have hnext : ¬ c.isDigit = true := by simp [hc]
  have htext : (toString n).toList = Nat.toDigits 10 n := by
    rw [Nat.toString_eq_ofList_toDigits, String.toList_ofList]
  have htake : (Nat.toDigits 10 n ++ c :: rest).takeWhile Char.isDigit = Nat.toDigits 10 n := by
    rw [List.takeWhile_append_of_pos hdigits, List.takeWhile_cons_of_neg hnext, List.append_nil]
  have hdrop : (Nat.toDigits 10 n ++ c :: rest).dropWhile Char.isDigit = c :: rest := by
    rw [List.dropWhile_append_of_pos hdigits, List.dropWhile_cons_of_neg hnext]
  rw [htext, readNumber, htake, hdrop]
  split
  · rename_i hnil
    exact absurd hnil Nat.toDigits_ne_nil
  · rw [Nat.ofDigitChars_ten_toDigits]

theorem flagOf?_letter (flag : Flag) : flagOf? flag.letter = some flag := by
  cases flag <;> rfl

/-- Flags are read back up to a character that is not the letter of a flag. -/
theorem readFlags_flagLetters (flags : List Flag) {c : Char} (hc : flagOf? c = none)
    (rest : List Char) :
    readFlags ((flagLetters flags).toList ++ c :: rest) = (flags, c :: rest) := by
  rw [flagLetters, String.toList_ofList]
  induction flags with
  | nil =>
      show readFlags (c :: rest) = _
      rw [readFlags, hc]
  | cons flag flags ih =>
      rw [List.map_cons, List.cons_append, readFlags, flagOf?_letter]
      show (flag :: _, _) = _
      rw [ih]

end PatternAlgebra.Syntax
